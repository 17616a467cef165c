import Mathlib.Data.List.Forall2
import Mathlib.Order.Bounds.Basic
import TapeFlow.Proofs.Statistics

/-!
# The event log

What a compilation reports can be read off the brackets of its source.  Each bracket
is reported where it stands, with the bracket it belongs to and with how many loops are
open; the pass stops at the first closing bracket that belongs to none.

* `LogLine`, `Event.line` — an event as the log writes it.
* `Source.Reports` — the line of the bracket at an offset, in terms of `Source.Matches`.
* `Source.ReadTo` — how far the pass comes.
* `Nesting.reported` — what one token makes the pass report; `Lower.events_token`,
  `Source.reports_reported`.
* `Lower.reports_take` — and what a part of a source does.
* `Logs`, `compile_logs_iff` — the log of a compilation, from its first line to its last.
-/

namespace TapeFlow

/-- A line of the log. -/
structure LogLine where
  /-- How much it matters. -/
  level : String
  /-- Its words. -/
  message : String
  /-- Its named values. -/
  fields : List (String × String)
  deriving DecidableEq

/-- An event as the log writes it. -/
def Event.line (e : Event) : LogLine := ⟨e.level, e.message, e.fields⟩

/-- The first line of a log. -/
def LogLine.start (options : Options) (source : Source) : LogLine :=
  ⟨"DEBUG", "compiling", [("bytes", toString source.length), ("module", options.moduleName)]⟩

namespace Source

/-- The line for the bracket at an offset. -/
inductive Reports (source : Source) (p : Nat) : LogLine → Prop where
  /-- With an opening bracket comes the depth inside the loop. -/
  | opened {depth : Nat} (opens : source[p]? = some (Command.toByte .loopOpen))
    (inside : Source.depth (source.take (p + 1)) = depth) :
    Reports source p
      ⟨"TRACE", "loop opened", [("offset", toString p), ("depth", toString depth)]⟩
  /-- With a closing bracket come the bracket it belongs to and the depth outside the loop. -/
  | closed {i depth : Nat} (loop : source.Matches i p)
    (outside : Source.depth (source.take (p + 1)) = depth) :
    Reports source p
      ⟨"TRACE", "loop closed",
        [("offset", toString p), ("opened_at", toString i), ("depth", toString depth)]⟩

/-- A closing bracket that belongs to no other. -/
def Stray (source : Source) (j : Nat) : Prop :=
  source[j]? = some (Command.toByte .loopClose) ∧ ∀ i, ¬ source.Matches i j

/-- The first stray bracket stands at `n`, or there is none and `n` is the end. -/
structure ReadTo (source : Source) (n : Nat) : Prop where
  /-- No stray bracket comes before. -/
  clear : ∀ j < n, ¬ source.Stray j
  /-- There is one here, or nothing more. -/
  stops : source.Stray n ∨ n = source.length

/-- The offsets of the brackets in front of an offset. -/
def brackets (source : Source) (n : Nat) : List Nat := (List.range n).filter source.BracketAt

end Source

/-- The lines of the log of a compilation. -/
inductive Logs (options : Options) (source : Source) : List LogLine → Prop where
  /-- A tape that is too long is found before the first command is read. -/
  | refused (cells : 2 ^ 63 ≤ options.cellCount.toNat) :
    Logs options source [.start options source]
  /-- If the brackets do not match, there are the lines of those up to the first stray one. -/
  | stopped (cells : options.cellCount.toNat < 2 ^ 63) (unbalanced : ¬ Balanced source.commands)
    {n : Nat} {lines : List LogLine} (read : source.ReadTo n)
    (brackets : List.Forall₂ source.Reports (source.brackets n) lines) :
    Logs options source (.start options source :: lines)
  /-- If they match, there is a line with counts at the end. -/
  | whole (cells : options.cellCount.toNat < 2 ^ 63) (balanced : Balanced source.commands)
    {n maxDepth : Nat} {lines : List LogLine} (read : source.ReadTo n)
    (brackets : List.Forall₂ source.Reports (source.brackets n) lines)
    (deepest : IsGreatest {d : Int | ∃ pre : Source, pre <+: source ∧ pre.depth = d} maxDepth) :
    Logs options source (.start options source :: lines ++
      [⟨"DEBUG", "translation complete",
        [("tokens", toString (source.countP fun b => (Command.ofByte? b).isSome)),
          ("blocks", toString (1 + 2 * source.count (Command.toByte .loopOpen))),
          ("max_depth", toString maxDepth)]⟩])

/-! ## There is one log -/

namespace Source

variable {source : Source} {i m n p : Nat}

theorem rightUnique_reports (source : Source) : Relator.RightUnique source.Reports := by
  intro p line line' h h'
  cases h with
  | opened opens inside =>
    cases h' with
    | opened opens' inside' =>
      cases Int.ofNat.inj (inside.symm.trans inside')
      rfl
    | closed loop' outside' => exact absurd (opens.symm.trans loop'.closes) (by decide)
  | closed loop outside =>
    cases h' with
    | opened opens' inside' => exact absurd (opens'.symm.trans loop.closes) (by decide)
    | closed loop' outside' =>
      cases loop.opening_unique loop'
      cases Int.ofNat.inj (outside.symm.trans outside')
      rfl

theorem ReadTo.le_length (h : source.ReadTo n) : n ≤ source.length := by
  rcases h.stops with hstray | hend
  · exact Nat.le_of_lt (List.getElem?_eq_some_iff.1 hstray.1).1
  · exact Nat.le_of_eq hend

theorem ReadTo.not_lt (h : source.ReadTo m) (h' : source.ReadTo n) : ¬ m < n := by
  intro hlt
  rcases h.stops with hstray | hend
  · exact h'.clear m hlt hstray
  · have := h'.le_length
    omega

theorem ReadTo.unique (h : source.ReadTo m) (h' : source.ReadTo n) : m = n := by
  have h₁ := h.not_lt h'
  have h₂ := h'.not_lt h
  omega

end Source

theorem Logs.unique {options : Options} {source : Source} {lines lines' : List LogLine}
    (h : Logs options source lines) (h' : Logs options source lines') : lines = lines' := by
  have hlines : ∀ {m n : Nat} {lines lines' : List LogLine}, source.ReadTo m → source.ReadTo n →
      List.Forall₂ source.Reports (source.brackets m) lines →
      List.Forall₂ source.Reports (source.brackets n) lines' → lines = lines' := by
    intro m n lines lines' hm hn hlines hlines'
    cases hm.unique hn
    exact List.right_unique_forall₂' source.rightUnique_reports hlines hlines'
  cases h with
  | refused cells =>
    cases h' with
    | refused => rfl
    | stopped cells' | whole cells' => omega
  | stopped cells unbalanced read brackets =>
    cases h' with
    | refused cells' => omega
    | stopped _ _ read' brackets' => rw [hlines read read' brackets brackets']
    | whole _ balanced' => exact absurd balanced' unbalanced
  | whole cells balanced read brackets deepest =>
    cases h' with
    | refused cells' => omega
    | stopped _ unbalanced' => exact absurd balanced unbalanced'
    | whole _ _ read' brackets' deepest' =>
      cases Int.ofNat.inj (deepest.unique deepest')
      rw [hlines read read' brackets brackets']

/-! ## Parts of a source -/

namespace Source

variable {source : Source} {c : Command} {s t : Nesting} {i n p : Nat}

theorem depth_take (hs : ({} : Nesting).run (Source.commands (source.take n)) = some s) :
    Source.depth (source.take n) = s.stack.length := by
  have hlen := Nesting.length_stack_run hs
  rw [depth, ← count_commands, ← count_commands]
  simp only [List.length_nil] at hlen
  omega

theorem bracketAt_iff (hc : source[n]? = some c.toByte) :
    source.BracketAt n ↔ c.isBracket = true := by
  rw [BracketAt, hc]
  cases c <;> decide

theorem brackets_succ (source : Source) (n : Nat) :
    source.brackets (n + 1) = source.brackets n ++ if source.BracketAt n then [n] else [] := by
  rw [brackets, List.range_succ, List.filter_append, brackets]
  by_cases h : source.BracketAt n <;> simp [h]

/-- A byte that is no command adds nothing. -/
theorem commands_take_comment (hn : n < source.length) (hb : Command.ofByte? source[n] = none) :
    Source.commands (source.take (n + 1)) = Source.commands (source.take n) := by
  rw [List.take_succ_eq_append_getElem hn, commands_append]
  simp [commands, hb]

/-- Reading stops where it cannot go on. -/
theorem readTo_of_run (hs : ({} : Nesting).run (Source.commands (source.take n)) = some s)
    (hstop : (source[n]? = some (Command.toByte .loopClose) ∧ s.stack = []) ∨
      n = source.length) : source.ReadTo n := by
  constructor
  · rintro j hj ⟨hclose, hstray⟩
    obtain ⟨u, hu⟩ := exists_run_of_le hs hj
    obtain ⟨t, ht⟩ := exists_run_of_le hs (Nat.le_of_lt hj)
    rw [commands_take_succ hclose, Nesting.run_append_of_eq ht, Nesting.run_cons] at hu
    cases hstack : t.stack with
    | nil =>
      rw [Nesting.step_close_nil hstack] at hu
      cases hu
    | cons loop rest =>
      obtain ⟨i, hmatch, -⟩ := exists_matches ht hstack hclose
      exact hstray i hmatch
  · refine hstop.imp_left ?_
    rintro ⟨hclose, hempty⟩
    refine ⟨hclose, fun i hmatch => ?_⟩
    obtain ⟨t, -, hstack, -⟩ := hmatch.run hs
    rw [hempty] at hstack
    cases hstack

end Source

namespace Scanner

variable {source : Source} {c : Command} {i n : Nat}

theorem tokens_append (a b : Source) :
    (ofSource (a ++ b)).tokens = (ofSource a).tokens ++ (⟨a.length, b⟩ : Scanner).tokens := by
  simp [tokens, ofSource, List.zipIdx_append]

/-- The tokens on both sides of a command. -/
theorem tokens_split (hc : source[n]? = some c.toByte) :
    (ofSource source).tokens = (ofSource (source.take n)).tokens ++
      ⟨c, n⟩ :: (⟨n + 1, source.drop (n + 1)⟩ : Scanner).tokens := by
  obtain ⟨hlt, hbyte⟩ := List.getElem?_eq_some_iff.1 hc
  have hlen : (source.take n).length = n := by
    rw [List.length_take]
    omega
  conv_lhs => rw [← List.take_append_drop n source, tokens_append, List.drop_eq_getElem_cons hlt,
    hbyte, tokens_command (Command.ofByte?_toByte c), hlen]

theorem tokens_take_succ (hc : source[n]? = some c.toByte) :
    (ofSource (source.take (n + 1))).tokens = (ofSource (source.take n)).tokens ++ [⟨c, n⟩] := by
  rw [tokens_split (Source.getElem?_take_of_lt hc (Nat.lt_succ_self n)), List.take_take,
    Nat.min_eq_left (Nat.le_succ n), List.drop_eq_nil_of_le (by rw [List.length_take]; omega)]
  rfl

theorem tokens_take_comment (hn : n < source.length) (hb : Command.ofByte? source[n] = none) :
    (ofSource (source.take (n + 1))).tokens = (ofSource (source.take n)).tokens := by
  rw [List.take_succ_eq_append_getElem hn, tokens_append, tokens_comment hb, tokens_nil,
    List.append_nil]

/-- The loop with a number was opened by the bracket with that number. -/
theorem getD_openOffsets_take (hi : source[i]? = some (Command.toByte .loopOpen)) (hin : i < n) :
    (openOffsets (ofSource (source.take n)).tokens).getD
      ((source.take i).count (Command.toByte .loopOpen)) 0 = i := by
  have hsplit := tokens_split (Source.getElem?_take_of_lt hi hin)
  rw [List.take_take, Nat.min_eq_left (Nat.le_of_lt hin)] at hsplit
  rw [hsplit, ← Source.count_commands, ← commands_ofSource (source.take i)]
  exact getD_openOffsets rfl

end Scanner

/-! ## What a token reports -/

/-- A program that is small enough has a number for every block. -/
theorem Nesting.two_mul_opened_lt {cs : List Command} {s : Nesting}
    (h : ({} : Nesting).run cs = some s) (hsmall : cs.length < 2 ^ 29) :
    2 * s.opened < 2 ^ 32 := by
  have hcount := opened_run h
  have hle := List.count_le_length (a := Command.loopOpen) (l := cs)
  simp only [Nat.zero_add] at hcount
  omega

/-- What a token makes the pass report, with these loops open and opened at these offsets. -/
def Nesting.reported (s : Nesting) (offsets : List Nat) (t : Token) : List Event :=
  match t.command with
  | .loopOpen => [.loopOpened t.offset (s.stack.length + 1)]
  | .loopClose => [.loopClosed t.offset (offsets.getD (s.stack.headD 0) 0) (s.stack.length - 1)]
  | _ => []

theorem Nesting.reported_straight (s : Nesting) (offsets : List Nat) {t : Token}
    (hc : t.command.isBracket = false) : s.reported offsets t = [] := by
  unfold reported
  split
  · rename_i h
    rw [h] at hc
    cases hc
  · rename_i h
    rw [h] at hc
    cases hc
  · rfl

theorem Pass.Tracks.depth {p : Pass} {read : List Token} {d : Draft} (h : p.Tracks read d) :
    p.loops.depth = d.nesting.stack.length := by
  rw [LoopStack.depth, h.frames]
  simp

theorem Lower.events_token {symbols : Symbols} {layout : TapeLayout} {d e : Draft} (hd : d.Fits)
    (hsmall : 2 * d.nesting.opened < 2 ^ 32) {p q : Pass} {read : List Token}
    (hp : p.Tracks read d) {t : Token} (h : d.step symbols layout t.command = some e)
    (hq : token symbols layout t p = .ok () q) :
    q.events.toList = p.events.toList ++ d.nesting.reported (openOffsets read) t := by
  have hdepth := hp.depth
  obtain ⟨hc, -⟩ | ⟨hc, -⟩ | ⟨hc, loop, rest, hstack, -⟩ :=
    Nesting.step_cases (Draft.step_eq_some h).1
  · rw [token_straight hd hsmall hp.builder hc] at hq
    cases hq
    rw [Nesting.reported_straight _ _ hc, List.append_nil]
  · rw [token_open hd hsmall hp.builder hc] at hq
    cases hq
    simp [Nesting.reported, hc, hdepth]
  · have hin := hp.innermost?
    rw [hstack] at hin
    have hloop : d.nesting.loopOf .loopClose = loop := by rw [Nesting.loopOf, hstack]; rfl
    rw [token_close hd hsmall hp.builder hc hin rfl rfl hloop] at hq
    cases hq
    have hdrop : p.loops.dropInnermost.depth = d.nesting.stack.length - 1 := by
      rw [← hdepth]
      simp [LoopStack.dropInnermost, LoopStack.depth]
    simp [Nesting.reported, hc, hdrop, hstack, loopFrame]

/-- What a token reports is what there is to say about the bracket at its offset. -/
theorem Source.reports_reported {source : Source} {s t : Nesting} {c : Command} {n : Nat}
    (hs : ({} : Nesting).run (Source.commands (source.take n)) = some s)
    (hbyte : source[n]? = some c.toByte) (hstep : s.step c = some t) :
    List.Forall₂ source.Reports (if source.BracketAt n then [n] else [])
      ((s.reported (openOffsets (Scanner.ofSource (source.take n)).tokens) ⟨c, n⟩).map
        Event.line) := by
  have hafter : Source.depth (source.take (n + 1)) = t.stack.length := by
    apply depth_take
    rw [commands_take_succ hbyte, Nesting.run_append_of_eq hs, Nesting.run_cons, hstep]
    rfl
  obtain ⟨hc, -⟩ | ⟨rfl, rfl⟩ | ⟨rfl, loop, rest, hstack, rfl⟩ := Nesting.step_cases hstep
  · have hnone : ¬ source.BracketAt n := by
      rw [bracketAt_iff hbyte, hc]
      exact Bool.false_ne_true
    rw [if_neg hnone, Nesting.reported_straight _ _ hc]
    exact .nil
  · rw [if_pos (.inl hbyte)]
    exact .cons (.opened hbyte hafter) .nil
  · rw [if_pos (.inr hbyte)]
    -- the innermost loop has the number of the bracket that this one belongs to
    obtain ⟨i, hmatch, hnumber⟩ := exists_matches hs hstack hbyte
    have hopened := Scanner.getD_openOffsets_take hmatch.opens hmatch.lt
    have hloop : (source.take i).count (Command.toByte .loopOpen) = loop := by
      rw [loopNumber] at hnumber
      omega
    rw [hloop] at hopened
    simp only [Nesting.reported, hstack, List.headD_cons, hopened, List.length_cons,
      Nat.add_sub_cancel]
    exact .cons (.closed hmatch hafter) .nil

/-! ## What the pass reports -/

/-- The pass when the tape has been set up. -/
def Pass.ready (options : Options) : Pass :=
  { Pass.start options with builder := (Draft.start options).builder }

theorem Draft.exists_of_run_concat {symbols : Symbols} {layout : TapeLayout} {d e : Draft}
    {cs : List Command} {c : Command} (h : d.run symbols layout (cs ++ [c]) = some e) :
    ∃ d', d.run symbols layout cs = some d' ∧ d'.step symbols layout c = some e := by
  have hnesting := nesting_run h
  rw [Nesting.run_append] at hnesting
  obtain ⟨s, hs, -⟩ := Option.bind_eq_some_iff.1 hnesting
  obtain ⟨d', hd', -⟩ := exists_run symbols layout hs
  rw [run_append_of_eq hd', run_cons] at h
  obtain ⟨e', he', hrun⟩ := Option.bind_eq_some_iff.1 h
  cases hrun
  exact ⟨d', hd', he'⟩

section

variable {options : Options} {source : Source}

/-- The pass over the first bytes of a source reports the brackets among them. -/
theorem Lower.reports_take (hsmall : source.commands.length < 2 ^ 29) {n : Nat}
    (hn : n ≤ source.length) {d : Draft}
    (hrun : (Draft.start options).run options.symbols (tapeLayout options)
      (Source.commands (source.take n)) = some d) :
    ∃ q, tokens options.symbols (tapeLayout options) (Scanner.ofSource (source.take n)).tokens
        (.ready options) = .ok () q ∧
      q.Tracks (Scanner.ofSource (source.take n)).tokens d ∧
      List.Forall₂ source.Reports (source.brackets n) (q.events.toList.map Event.line) := by
  -- byte by byte and not token by token, since a line is about an offset
  induction n generalizing d with
  | zero =>
    cases hrun
    exact ⟨.ready options, rfl, Pass.tracks_start options, .nil⟩
  | succ n ih =>
    cases hb : Command.ofByte? source[n] with
    | none =>
      have hnone : ¬ source.BracketAt n := by
        rw [Source.BracketAt, List.getElem?_eq_getElem hn]
        rintro (h | h)
        · rw [Option.some.inj h] at hb
          cases hb
        · rw [Option.some.inj h] at hb
          cases hb
      rw [Source.commands_take_comment hn hb] at hrun
      rw [Scanner.tokens_take_comment hn hb, Source.brackets_succ, if_neg hnone, List.append_nil]
      exact ih (Nat.le_of_lt hn) hrun
    | some c =>
      have hbyte : source[n]? = some c.toByte := by
        rw [List.getElem?_eq_getElem hn, Command.toByte_of_ofByte? hb]
      rw [Source.commands_take_succ hbyte] at hrun
      obtain ⟨d', hd', hstep⟩ := Draft.exists_of_run_concat hrun
      obtain ⟨q', hq', htrack', hreports⟩ := ih (Nat.le_of_lt hn) hd'
      have hnesting := Draft.nesting_run hd'
      have hlength : (Source.commands (source.take n)).length ≤ source.commands.length :=
        ((List.take_sublist n source).filterMap _).length_le
      have hopened := Nesting.two_mul_opened_lt hnesting (by omega)
      have hfits := (Draft.fits_start options).run hd'
      obtain ⟨q, hq, htrack⟩ := token_of_step hfits hopened htrack' (t := ⟨c, n⟩) hstep
      refine ⟨{ q with tokens := q.tokens + 1 }, ?_, ?_, ?_⟩
      · rw [Scanner.tokens_take_succ hbyte, tokens_append_of_ok hq', tokens, bind_of_ok hq]
        rfl
      · rw [Scanner.tokens_take_succ hbyte]
        exact htrack.countToken
      · rw [events_token hfits hopened htrack' hstep hq, Source.brackets_succ, List.map_append]
        exact List.rel_append hreports
          (Source.reports_reported hnesting hbyte (Draft.step_eq_some hstep).1)

theorem Lower.program_eq (hcells : options.cellCount.toNat < 2 ^ 63) (scanner : Scanner) :
    program options scanner (.start options) =
      (do tokens options.symbols (tapeLayout options) scanner.tokens
          finishLoops scanner.sourceLength
          build epilogue : Lower Unit) (.ready options) :=
  bind_of_ok (build_of_ok (prologue_eq options hcells))

/-- What lowering reports where the brackets match. -/
theorem lower_of_closed (hcells : options.cellCount.toNat < 2 ^ 63) {d : Draft} {q : Pass}
    (htokens : Lower.tokens options.symbols (tapeLayout options) (Scanner.ofSource source).tokens
      (.ready options) = .ok () q)
    (htrack : q.Tracks (Scanner.ofSource source).tokens d) (hfits : d.Fits)
    (hsmall : 2 * d.nesting.opened < 2 ^ 32) (hstack : d.nesting.stack = []) :
    ∃ result tally, lower options (.ofSource source) = (.ok (result, tally),
      q.events.toList ++ [.lowered tally.tokens tally.blocks tally.maxDepth]) := by
  have hloops : Lower.finishLoops (Scanner.ofSource source).sourceLength q = .ok () q := by
    simp [Lower.finishLoops, LoopStack.finish, htrack.innermost?, hstack]
  have hepilogue := Lower.build_of_ok (p := q) (x := Lower.epilogue) (b := d.finished)
    (by rw [htrack.builder]; exact epilogue_eq hfits hsmall)
  have hprogram := Lower.program_eq hcells (Scanner.ofSource source)
  rw [bind_of_ok htokens, bind_of_ok hloops, hepilogue] at hprogram
  rw [lower, hprogram]
  exact ⟨_, _, rfl⟩

/-- What it reports where a loop is left open. -/
theorem lower_of_left_open (hcells : options.cellCount.toNat < 2 ^ 63) {d : Draft} {q : Pass}
    (htokens : Lower.tokens options.symbols (tapeLayout options) (Scanner.ofSource source).tokens
      (.ready options) = .ok () q)
    (htrack : q.Tracks (Scanner.ofSource source).tokens d) {loop : Nat} {rest : List Nat}
    (hstack : d.nesting.stack = loop :: rest) :
    ∃ e, lower options (.ofSource source) = (.error e, q.events.toList) := by
  obtain ⟨e, hloops⟩ : ∃ e,
      Lower.finishLoops (Scanner.ofSource source).sourceLength q = .error e q := by
    simp [Lower.finishLoops, LoopStack.finish, htrack.innermost?, hstack]
  have hprogram := Lower.program_eq hcells (Scanner.ofSource source)
  rw [bind_of_ok htokens, bind_of_error hloops] at hprogram
  rw [lower, hprogram]
  exact ⟨e, rfl⟩

/-- What it reports where a bracket closes nothing. -/
theorem lower_of_stray (hcells : options.cellCount.toNat < 2 ^ 63) {n : Nat} {d : Draft} {q : Pass}
    (htokens : Lower.tokens options.symbols (tapeLayout options)
      (Scanner.ofSource (source.take n)).tokens (.ready options) = .ok () q)
    (htrack : q.Tracks (Scanner.ofSource (source.take n)).tokens d)
    (hclose : source[n]? = some (Command.toByte .loopClose)) (hstack : d.nesting.stack = []) :
    ∃ e, lower options (.ofSource source) = (.error e, q.events.toList) := by
  have hnone : q.loops.innermost? = none := by
    rw [htrack.innermost?, hstack]
    rfl
  have hrefused : Lower.tokens options.symbols (tapeLayout options)
      (Scanner.ofSource source).tokens (.ready options) = .error (.unexpectedClose n) q := by
    rw [Scanner.tokens_split hclose, Lower.tokens_append_of_ok htokens, Lower.tokens]
    exact bind_of_error (Lower.token_refused hnone rfl)
  have hprogram := Lower.program_eq hcells (Scanner.ofSource source)
  rw [bind_of_error hrefused] at hprogram
  rw [lower, hprogram]
  exact ⟨_, rfl⟩

/-- Lowering reports the brackets up to the first stray one, and that it is done if they match. -/
theorem lower_reports (hcells : options.cellCount.toNat < 2 ^ 63)
    (hsmall : source.commands.length < 2 ^ 29) :
    ∃ n events, source.ReadTo n ∧
      List.Forall₂ source.Reports (source.brackets n) (events.map Event.line) ∧
      ((¬ Balanced source.commands ∧ ∃ e, lower options (.ofSource source) = (.error e, events)) ∨
        (Balanced source.commands ∧ ∃ result tally, lower options (.ofSource source) =
          (.ok (result, tally),
            events ++ [.lowered tally.tokens tally.blocks tally.maxDepth]))) := by
  cases hrun : ({} : Nesting).run source.commands with
  | none =>
    have hunbalanced : ¬ Balanced source.commands := by
      intro hbal
      obtain ⟨s, hs, -⟩ := Source.exists_run_all hbal
      rw [hrun] at hs
      cases hs
    obtain ⟨pre, post, s, hsplit, hs, hempty⟩ := Nesting.exists_refused hrun
    obtain ⟨n, hclose, rfl, -⟩ := Source.exists_offset hsplit
    have hn := Nat.le_of_lt (List.getElem?_eq_some_iff.1 hclose).1
    obtain ⟨d, hd, rfl⟩ := Draft.exists_run (d := Draft.start options) options.symbols
      (tapeLayout options) hs
    obtain ⟨q, hq, htrack, hreports⟩ := Lower.reports_take hsmall hn hd
    exact ⟨n, _, Source.readTo_of_run hs (.inl ⟨hclose, hempty⟩), hreports,
      .inl ⟨hunbalanced, lower_of_stray hcells hq htrack hclose hempty⟩⟩
  | some s =>
    have hs : ({} : Nesting).run (Source.commands (source.take source.length)) = some s := by
      rw [List.take_length]
      exact hrun
    have hread := Source.readTo_of_run hs (.inr rfl)
    obtain ⟨d, hd, rfl⟩ := Draft.exists_run (d := Draft.start options) options.symbols
      (tapeLayout options) hs
    obtain ⟨q, hq, htrack, hreports⟩ := Lower.reports_take hsmall (Nat.le_refl _) hd
    rw [List.take_length] at hq htrack
    refine ⟨source.length, _, hread, hreports, ?_⟩
    cases hstack : d.nesting.stack with
    | nil =>
      have hopened := Nesting.two_mul_opened_lt hrun hsmall
      exact .inr ⟨Source.balanced_of_run hrun hstack,
        lower_of_closed hcells hq htrack ((Draft.fits_start options).run hd) hopened hstack⟩
    | cons loop rest =>
      refine .inl ⟨fun hbal => ?_, lower_of_left_open hcells hq htrack hstack⟩
      obtain ⟨t, ht, hempty⟩ := Source.exists_run_all hbal
      cases hrun.symm.trans ht
      rw [hstack] at hempty
      cases hempty

theorem lower_of_refused (source : Source) (hcells : 2 ^ 63 ≤ options.cellCount.toNat) :
    ∃ e, lower options (.ofSource source) = (.error e, []) := by
  obtain ⟨b, hb⟩ := prologue_refused options hcells
  have hprogram : Lower.program options (.ofSource source) (.start options) =
      .error _ { Pass.start options with builder := b } :=
    bind_of_error (Lower.build_of_error hb)
  rw [lower, hprogram]
  exact ⟨_, rfl⟩

/-! ## The whole log -/

/-- What lowering counts, in terms of the bytes of the source. -/
theorem tally_of_bytes (hsmall : source.commands.length < 2 ^ 29) {result : Module}
    {tally : Tally} (h : (lower options (.ofSource source)).1 = .ok (result, tally)) :
    tally.tokens = (source.countP fun b => (Command.ofByte? b).isSome) ∧
      tally.blocks = 1 + 2 * source.count (Command.toByte .loopOpen) ∧
      IsGreatest {d : Int | ∃ pre : Source, pre <+: source ∧ pre.depth = d} tally.maxDepth := by
  obtain ⟨e, he, rfl⟩ := exists_completes_of_lower hsmall h
  obtain ⟨p, hp, rfl, hfunctions⟩ := tally_of_lower h
  obtain ⟨htokens, htraces⟩ := Lower.traces_program hp
  rw [Scanner.commands_ofSource] at htokens htraces
  have hblocks : p.builder.blocks = e.finished.blocks :=
    congrArg Function.blocks (List.singleton_inj.1 hfunctions).symm
  refine ⟨?_, ?_, htraces.isGreatest⟩
  · rw [← List.length_filterMap_eq_countP]
    exact htokens
  · rw [← Source.count_commands, ← he.size, ← hblocks]
    rfl

theorem compile_events_of_error {e : Error} {events : List Event}
    (h : lower options (.ofSource source) = (.error e, events)) :
    (compile options source).2 = .started source.length options.moduleName :: events := by
  rw [compile, h]

theorem compile_events_of_ok {result : Module} {tally : Tally} {events : List Event}
    (h : lower options (.ofSource source) = (.ok (result, tally), events))
    (hwarnings : result.check.warnings = []) :
    (compile options source).2 = .started source.length options.moduleName :: events := by
  have hverify : (verify options result tally).2 = [] := by
    unfold verify
    split
    · simp only [hwarnings, List.map_nil]
      split
      · rfl
      · rfl
    · rfl
  rw [compile, h]
  simp only [hverify, List.append_nil]

/-- The log of a compilation is what the brackets of its source say, and nothing else. -/
theorem compile_logs_iff (hsmall : source.commands.length < 2 ^ 29) {lines : List LogLine} :
    (compile options source).2.map Event.line = lines ↔ Logs options source lines := by
  have hlogs : Logs options source ((compile options source).2.map Event.line) := by
    by_cases hcells : options.cellCount.toNat < 2 ^ 63
    · obtain ⟨n, events, hread, hreports, hlower⟩ := lower_reports hcells hsmall
      rcases hlower with ⟨hunbalanced, e, hlower⟩ | ⟨hbal, result, tally, hlower⟩
      · rw [compile_events_of_error hlower]
        exact .stopped hcells hunbalanced hread hreports
      · have hok : (lower options (.ofSource source)).1 = .ok (result, tally) := by rw [hlower]
        obtain ⟨htokens, hblocks, hdepth⟩ := tally_of_bytes hsmall hok
        obtain ⟨e, he, rfl⟩ := exists_completes_of_lower hsmall hok
        rw [compile_events_of_ok hlower (he.follows.warnings_eq_nil hbal rfl), htokens, hblocks,
          List.map_cons, List.map_append]
        exact .whole hcells hbal hread hreports hdepth
    · obtain ⟨e, hlower⟩ := lower_of_refused source (Nat.le_of_not_lt hcells)
      rw [compile_events_of_error hlower]
      exact .refused (Nat.le_of_not_lt hcells)
  constructor
  · rintro rfl
    exact hlogs
  · exact hlogs.unique

end

/-- The program `[+[-]!]]>[` has a bracket at offset 7 that closes nothing; the brackets of
`[[-]]` match. -/
theorem compile_logs_iff_nested :
    let stray : Source := [91, 43, 91, 45, 93, 33, 93, 93, 62, 91]
    let nested : Source := [91, 91, 45, 93, 93]
    (stray.commands.length < 2 ^ 29 ∧ (compile {} stray).2.map Event.line =
      [⟨"DEBUG", "compiling", [("bytes", "10"), ("module", "bf_module")]⟩,
        ⟨"TRACE", "loop opened", [("offset", "0"), ("depth", "1")]⟩,
        ⟨"TRACE", "loop opened", [("offset", "2"), ("depth", "2")]⟩,
        ⟨"TRACE", "loop closed", [("offset", "4"), ("opened_at", "2"), ("depth", "1")]⟩,
        ⟨"TRACE", "loop closed", [("offset", "6"), ("opened_at", "0"), ("depth", "0")]⟩]) ∧
    (nested.commands.length < 2 ^ 29 ∧ (compile {} nested).2.map Event.line =
      [⟨"DEBUG", "compiling", [("bytes", "5"), ("module", "bf_module")]⟩,
        ⟨"TRACE", "loop opened", [("offset", "0"), ("depth", "1")]⟩,
        ⟨"TRACE", "loop opened", [("offset", "1"), ("depth", "2")]⟩,
        ⟨"TRACE", "loop closed", [("offset", "3"), ("opened_at", "1"), ("depth", "1")]⟩,
        ⟨"TRACE", "loop closed", [("offset", "4"), ("opened_at", "0"), ("depth", "0")]⟩,
        ⟨"DEBUG", "translation complete",
          [("tokens", "5"), ("blocks", "5"), ("max_depth", "2")]⟩]) := by
  intro stray nested
  have hcells : ({} : Options).cellCount.toNat < 2 ^ 63 := by decide
  have hsmall : stray.commands.length < 2 ^ 29 := by decide
  have hsmall' : nested.commands.length < 2 ^ 29 := by decide
  have hread : stray.ReadTo 7 := Source.readTo_of_run rfl (.inl ⟨rfl, rfl⟩)
  have hread' : nested.ReadTo 5 := Source.readTo_of_run rfl (.inr rfl)
  have hlines : List.Forall₂ stray.Reports (stray.brackets 7) _ :=
    .cons (.opened rfl rfl) (.cons (.opened rfl rfl)
      (.cons (.closed (i := 2) ⟨by decide, rfl, rfl, by decide⟩ rfl)
        (.cons (.closed (i := 0) ⟨by decide, rfl, rfl, by decide⟩ rfl) .nil)))
  have hlines' : List.Forall₂ nested.Reports (nested.brackets 5) _ :=
    .cons (.opened rfl rfl) (.cons (.opened rfl rfl)
      (.cons (.closed (i := 1) ⟨by decide, rfl, rfl, by decide⟩ rfl)
        (.cons (.closed (i := 0) ⟨by decide, rfl, rfl, by decide⟩ rfl) .nil)))
  have hdeepest : IsGreatest {d : Int | ∃ pre : Source, pre <+: nested ∧ pre.depth = d}
      (2 : Nat) := by
    refine ⟨⟨[91, 91], by decide, rfl⟩, ?_⟩
    rintro d ⟨pre, hpre, rfl⟩
    have hall : ∀ k ≤ nested.length, Source.depth (nested.take k) ≤ 2 := by decide
    rw [List.prefix_iff_eq_take.1 hpre]
    exact hall _ hpre.length_le
  refine ⟨⟨hsmall, ?_⟩, hsmall', ?_⟩
  · exact ((compile_logs_iff hsmall).2 (.stopped hcells (by decide) hread hlines)).trans (by decide)
  · exact ((compile_logs_iff hsmall').2
      (.whole hcells (by decide) hread' hlines' hdeepest)).trans (by decide)

end TapeFlow
