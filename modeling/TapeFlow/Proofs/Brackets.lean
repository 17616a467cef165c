import Mathlib.Logic.ExistsUnique
import TapeFlow.Proofs.Nesting

/-!
# Brackets and their offsets

What is said about the brackets of a source is said in terms of byte offsets.
This module has the notions for it, and takes them over to the list of commands,
where the other bytes are gone.

* `Source.Matches` — two brackets that belong together.
* `Source.loopNumber` — the number of a loop, counted from one.
* `Source.Home` — the block of a bracket or of the end, given by the last bracket
  in front of it alone.
* `Source.home_iff` — a block is the home of an offset exactly if it is the one
  code goes to when the source has been read that far.
* `Source.housed` — where the brackets match, every block is the home of exactly
  one bracket or of the end.
* `Source.paired` — and every bracket has exactly one that it belongs to.
-/

namespace TapeFlow

namespace Source

/-- A bracket of either kind stands at an offset. -/
def BracketAt (source : Source) (p : Nat) : Prop :=
  source[p]? = some (Command.toByte .loopOpen) ∨ source[p]? = some (Command.toByte .loopClose)

instance (source : Source) (p : Nat) : Decidable (source.BracketAt p) :=
  inferInstanceAs (Decidable (_ ∨ _))

/-- The brackets at two offsets belong together. -/
structure Matches (source : Source) (i j : Nat) : Prop where
  /-- The one stands before the other. -/
  lt : i < j
  /-- The first opens a loop. -/
  opens : source[i]? = some (Command.toByte .loopOpen)
  /-- The second closes one. -/
  closes : source[j]? = some (Command.toByte .loopClose)
  /-- All brackets between the two match among themselves. -/
  between : Balanced (Source.commands ((source.take j).drop (i + 1)))

/-- The number of the loop that is opened at an offset, counted from one in the
order of the source. -/
def loopNumber (source : Source) (i : Nat) : Nat :=
  (source.take i).count (Command.toByte .loopOpen) + 1

/-- The last bracket in front of an offset stands at `q`. -/
structure LastBracket (source : Source) (p q : Nat) : Prop where
  /-- It stands in front. -/
  lt : q < p
  /-- It is a bracket. -/
  bracket : source.BracketAt q
  /-- No bracket comes after it. -/
  last : ∀ r, q < r → r < p → ¬ source.BracketAt r

/-- The block that code goes to in front of an offset. -/
inductive Home (source : Source) (p : Nat) : Nat → Prop where
  /-- In front of all brackets it is the first block. -/
  | start (clear : ∀ q < p, ¬ source.BracketAt q) : Home source p 0
  /-- After the bracket that opens a loop it is the body of the loop. -/
  | body {q : Nat} (last : source.LastBracket p q)
    (opens : source[q]? = some (Command.toByte .loopOpen)) :
    Home source p (2 * source.loopNumber q - 1)
  /-- After the bracket that closes a loop it is the block after the loop. -/
  | after {i q : Nat} (last : source.LastBracket p q) (loop : source.Matches i q) :
    Home source p (2 * source.loopNumber i)

/-- An offset at which a block ends: that of a bracket, or the end. -/
def Place (source : Source) (p : Nat) : Prop := source.BracketAt p ∨ p = source.length

/-- Places and the block numbers below `size` belong together one to one. -/
structure Housed (source : Source) (size : Nat) : Prop where
  /-- Every place has one home. -/
  home : ∀ p, source.Place p → ∃! b, source.Home p b
  /-- It is one of the blocks. -/
  lt : ∀ p b, source.Place p → source.Home p b → b < size
  /-- Different places have different homes. -/
  injective : ∀ p q b, source.Place p → source.Place q → source.Home p b → source.Home q b → p = q
  /-- Every block is the home of a place. -/
  covers : ∀ b < size, ∃ p, source.Place p ∧ source.Home p b

/-- Brackets belong together two by two, and every loop has its number. -/
structure Paired (source : Source) : Prop where
  /-- Every opening bracket is closed by one other. -/
  closing : ∀ i, source[i]? = some (Command.toByte .loopOpen) → ∃! j, source.Matches i j
  /-- Every closing bracket closes one other. -/
  opening : ∀ j, source[j]? = some (Command.toByte .loopClose) → ∃! i, source.Matches i j
  /-- The loops are numbered from one up to how many there are. -/
  numbered : ∀ k, 1 ≤ k → k ≤ source.count (Command.toByte .loopOpen) →
    ∃! i, source[i]? = some (Command.toByte .loopOpen) ∧ source.loopNumber i = k

/-! ## Bytes and commands -/

variable {source : Source} {p q : Nat} {c : Command} {pre post : List Command}

theorem commands_append (a b : Source) :
    Source.commands (a ++ b) = Source.commands a ++ Source.commands b :=
  List.filterMap_append

theorem commands_cons_toByte (c : Command) (bs : Source) :
    Source.commands (c.toByte :: bs) = c :: Source.commands bs :=
  List.filterMap_cons_some (Command.ofByte?_toByte c)

theorem count_commands (c : Command) (source : Source) :
    source.commands.count c = source.count c.toByte := by
  induction source with
  | nil => rfl
  | cons b bs ih =>
    rw [commands] at ih ⊢
    rw [List.count_cons, ← ih]
    cases hb : Command.ofByte? b with
    | some d =>
      have hd := Command.toByte_of_ofByte? hb
      have hiff : (b == c.toByte) = (d == c) := by
        rw [Bool.eq_iff_iff, beq_iff_eq, beq_iff_eq, ← hd]
        constructor
        · intro h
          have := congrArg Command.ofByte? h
          simpa using this
        · rintro rfl
          rfl
      rw [List.filterMap_cons_some hb, List.count_cons, hiff]
    | none =>
      have hne : (b == c.toByte) = false := by
        rw [beq_eq_false_iff_ne]
        rintro rfl
        simp at hb
      rw [List.filterMap_cons_none hb, hne]
      simp

theorem mem_commands : c ∈ source.commands ↔ c.toByte ∈ source := by
  rw [← List.count_pos_iff, ← List.count_pos_iff, count_commands]

/-- The commands on both sides of a command. -/
theorem commands_split (h : source[p]? = some c.toByte) :
    source.commands = Source.commands (source.take p) ++ c :: Source.commands (source.drop (p + 1)) := by
  obtain ⟨hlt, hc⟩ := List.getElem?_eq_some_iff.1 h
  rw [← commands_cons_toByte, ← commands_append, ← hc, ← List.drop_eq_getElem_cons hlt,
    List.take_append_drop]

theorem getElem?_take_of_lt (h : source[q]? = some c.toByte) (hq : q < p) :
    (source.take p)[q]? = some c.toByte := by
  rw [List.getElem?_take_of_lt hq, h]

/-- What stands after an offset stands in the rest of the source too. -/
theorem getElem?_drop_of_lt (h : source[p]? = some c.toByte) (hq : q < p) :
    (source.drop (q + 1))[p - (q + 1)]? = some c.toByte := by
  rw [List.getElem?_drop, show q + 1 + (p - (q + 1)) = p by omega, h]

theorem commands_take_split (hq : q < p) (h : source[q]? = some c.toByte) :
    Source.commands (source.take p) = Source.commands (source.take q) ++
      c :: Source.commands ((source.take p).drop (q + 1)) := by
  rw [commands_split (getElem?_take_of_lt h hq), List.take_take, Nat.min_eq_left (Nat.le_of_lt hq)]

theorem commands_take_succ (h : source[p]? = some c.toByte) :
    Source.commands (source.take (p + 1)) = Source.commands (source.take p) ++ [c] := by
  rw [commands_take_split (Nat.lt_succ_self p) h, List.drop_eq_nil_of_le (by rw [List.length_take]; omega)]
  rfl

/-- Where in the source a command stands. -/
theorem exists_offset (h : source.commands = pre ++ c :: post) :
    ∃ p, source[p]? = some c.toByte ∧ Source.commands (source.take p) = pre ∧
      Source.commands (source.drop (p + 1)) = post := by
  induction source generalizing pre with
  | nil => exact absurd h (by simp [commands])
  | cons b bs ih =>
    cases hb : Command.ofByte? b with
    | none =>
      rw [commands, List.filterMap_cons_none hb] at h
      obtain ⟨p, hp, hpre, hpost⟩ := ih h
      refine ⟨p + 1, by simpa using hp, ?_, by simpa using hpost⟩
      rw [List.take_succ_cons, commands, List.filterMap_cons_none hb]
      exact hpre
    | some d =>
      have hd := Command.toByte_of_ofByte? hb
      rw [← hd, commands_cons_toByte] at h
      cases pre with
      | nil =>
        obtain ⟨rfl, rfl⟩ := List.cons.inj h
        exact ⟨0, by simp [hd], rfl, rfl⟩
      | cons a pre =>
        obtain ⟨rfl, hrest⟩ := List.cons.inj h
        obtain ⟨p, hp, hpre, hpost⟩ := ih hrest
        refine ⟨p + 1, by simpa using hp, ?_, by simpa using hpost⟩
        rw [List.take_succ_cons, ← hd, commands_cons_toByte, hpre]

/-! ## Homes -/

/-- Between two offsets without a bracket between them, the nesting stays. -/
theorem run_of_clear {s : Nesting} (h : ∀ r, q ≤ r → r < p → ¬ source.BracketAt r) :
    s.run (Source.commands ((source.take p).drop q)) = some s := by
  refine Nesting.run_straight s fun c hc => ?_
  obtain ⟨k, hk⟩ := List.mem_iff_getElem?.1 (mem_commands.1 hc)
  rw [List.getElem?_drop] at hk
  have hlt : q + k < p := by
    have := (List.getElem?_eq_some_iff.1 hk).1
    simp at this
    omega
  rw [List.getElem?_take_of_lt hlt] at hk
  cases c with
  | loopOpen => exact absurd (.inl hk) (h (q + k) (by omega) hlt)
  | loopClose => exact absurd (.inr hk) (h (q + k) (by omega) hlt)
  | _ => rfl

theorem LastBracket.run (h : source.LastBracket p q) {c : Command}
    (hc : source[q]? = some c.toByte) {s : Nesting}
    (hs : ({} : Nesting).run (Source.commands (source.take p)) = some s) :
    ∃ t, ({} : Nesting).run (Source.commands (source.take q)) = some t ∧ t.step c = some s := by
  rw [commands_take_split h.lt hc, Nesting.run_append] at hs
  obtain ⟨t, ht, hs⟩ := Option.bind_eq_some_iff.1 hs
  rw [Nesting.run_cons] at hs
  obtain ⟨u, hu, hs⟩ := Option.bind_eq_some_iff.1 hs
  rw [run_of_clear fun r hr => h.last r hr] at hs
  cases hs
  exact ⟨t, ht, hu⟩

theorem opened_of_run {s : Nesting}
    (hs : ({} : Nesting).run (Source.commands (source.take p)) = some s) :
    s.opened + 1 = source.loopNumber p := by
  rw [Nesting.opened_run hs, count_commands, loopNumber, Nat.zero_add]

/-- In front of the bracket that closes a loop, that loop is the innermost, and
code goes to a block it made. -/
theorem Matches.run {i j : Nat} (h : source.Matches i j) {s : Nesting}
    (hs : ({} : Nesting).run (Source.commands (source.take j)) = some s) :
    ∃ t, ({} : Nesting).run (Source.commands (source.take i)) = some t ∧
      s.stack = t.opened :: t.stack ∧ 2 * t.opened < s.current := by
  rw [commands_take_split h.lt h.opens, Nesting.run_append] at hs
  obtain ⟨t, ht, hs⟩ := Option.bind_eq_some_iff.1 hs
  obtain ⟨u, hu, hu'⟩ := Nesting.run_open_balanced t h.between
  cases hu.symm.trans hs
  exact ⟨t, ht, hu'⟩

theorem Home.eq_current {b : Nat} (h : source.Home p b) {s : Nesting}
    (hs : ({} : Nesting).run (Source.commands (source.take p)) = some s) : b = s.current := by
  cases h with
  | start clear =>
    have hstraight : ({} : Nesting).run (Source.commands ((source.take p).drop 0)) = some {} :=
      run_of_clear fun r _ hr => clear r hr
    cases hstraight.symm.trans hs
    rfl
  | body last opens =>
    obtain ⟨t, ht, hstep⟩ := last.run opens hs
    cases hstep
    have := opened_of_run ht
    simp only [Nesting.bodyBlock]
    omega
  | after last loop =>
    obtain ⟨t, ht, hstep⟩ := last.run loop.closes hs
    obtain ⟨u, hu, hstack, -⟩ := loop.run ht
    rw [Nesting.step_close hstack] at hstep
    cases hstep
    have := opened_of_run hu
    simp only [Nesting.afterBlock]
    omega

/-- A byte that is no bracket has the same home as the byte after it. -/
theorem Home.succ {b : Nat} (h : source.Home p b) (hp : ¬ source.BracketAt p) :
    source.Home (p + 1) b := by
  have hlast : ∀ {q}, source.LastBracket p q → source.LastBracket (p + 1) q := by
    intro q hq
    refine ⟨Nat.lt_succ_of_lt hq.lt, hq.bracket, fun r hr hlt => ?_⟩
    rcases Nat.lt_succ_iff_lt_or_eq.1 hlt with hlt | rfl
    · exact hq.last r hr hlt
    · exact hp
  cases h with
  | start clear =>
    refine .start fun q hq => ?_
    rcases Nat.lt_succ_iff_lt_or_eq.1 hq with hq | rfl
    · exact clear q hq
    · exact hp
  | body last opens => exact .body (hlast last) opens
  | after last loop => exact .after (hlast last) loop

/-- Every closing bracket that is not refused closes some loop. -/
theorem exists_matches {s : Nesting} {loop : Nat} {rest : List Nat}
    (hs : ({} : Nesting).run (Source.commands (source.take p)) = some s)
    (hstack : s.stack = loop :: rest) (hc : source[p]? = some (Command.toByte .loopClose)) :
    ∃ i, source.Matches i p ∧ loop + 1 = source.loopNumber i := by
  obtain ⟨pre, mid, t, hcommands, hmid, ht, hopened, -⟩ := Nesting.exists_open_of_stack hs hstack
  obtain ⟨i, hi, rfl, rfl⟩ := exists_offset hcommands
  have hip : i < p := by
    have := (List.getElem?_eq_some_iff.1 hi).1
    simp at this
    omega
  rw [List.getElem?_take_of_lt hip] at hi
  rw [List.take_take, Nat.min_eq_left (Nat.le_of_lt hip)] at ht
  exact ⟨i, ⟨hip, hi, hc, hmid⟩, hopened ▸ opened_of_run ht⟩

theorem home_current {s : Nesting}
    (hs : ({} : Nesting).run (Source.commands (source.take p)) = some s) :
    source.Home p s.current := by
  induction p generalizing s with
  | zero =>
    cases hs
    exact .start nofun
  | succ p ih =>
    have hnear : source.BracketAt p → source.LastBracket (p + 1) p := fun hp =>
      ⟨Nat.lt_succ_self p, hp, fun r hr hlt => by omega⟩
    by_cases hopen : source[p]? = some (Command.toByte .loopOpen)
    · obtain ⟨t, ht, hstep⟩ := (hnear (.inl hopen)).run hopen hs
      cases hstep
      have hhome := Home.body (hnear (.inl hopen)) hopen
      rw [← opened_of_run ht] at hhome
      exact hhome
    · by_cases hclose : source[p]? = some (Command.toByte .loopClose)
      · obtain ⟨t, ht, hstep⟩ := (hnear (.inr hclose)).run hclose hs
        obtain ⟨hb, -⟩ | ⟨hb, -⟩ | ⟨-, loop, rest, hstack, rfl⟩ := Nesting.step_cases hstep
        · cases hb
        · cases hb
        · obtain ⟨i, hmatch, hnumber⟩ := exists_matches ht hstack hclose
          have hhome := Home.after (hnear (.inr hclose)) hmatch
          rw [← hnumber] at hhome
          exact hhome
      · have hp : ¬ source.BracketAt p := fun h => h.elim hopen hclose
        -- the byte at `p` does not change the nesting
        have hsplit : Source.commands (source.take (p + 1)) = Source.commands (source.take p) ++
            Source.commands ((source.take (p + 1)).drop p) := by
          rw [← commands_append]
          congr 1
          rw [List.drop_take, List.take_add]
          simp
        rw [hsplit, Nesting.run_append] at hs
        obtain ⟨t, ht, hs⟩ := Option.bind_eq_some_iff.1 hs
        rw [run_of_clear fun r hr hlt => by rwa [show r = p by omega]] at hs
        cases hs
        exact (ih ht).succ hp

/-- The home of an offset is the block code goes to there. -/
theorem home_iff {s : Nesting} {b : Nat}
    (hs : ({} : Nesting).run (Source.commands (source.take p)) = some s) :
    source.Home p b ↔ b = s.current :=
  ⟨fun h => h.eq_current hs, fun h => h ▸ home_current hs⟩

/-! ## Sources whose brackets match -/

variable {b i j : Nat}

/-- Every prefix of a source whose brackets match can be read. -/
theorem exists_run_take (hbal : Balanced source.commands) (p : Nat) :
    ∃ s, ({} : Nesting).run (Source.commands (source.take p)) = some s := by
  have hnested := hbal.nested
  rw [← List.take_append_drop p source, commands_append, nested_append] at hnested
  exact Nesting.exists_run hnested.1

/-- At the end no loop is open. -/
theorem exists_run_all (hbal : Balanced source.commands) :
    ∃ t, ({} : Nesting).run source.commands = some t ∧ t.stack = [] := by
  obtain ⟨t, ht, hstack, -⟩ := Nesting.run_balanced {} hbal
  exact ⟨t, ht, hstack⟩

theorem exists_home (hbal : Balanced source.commands) (p : Nat) : ∃ b, source.Home p b := by
  obtain ⟨s, hs⟩ := exists_run_take hbal p
  exact ⟨_, home_current hs⟩

theorem home_unique (hbal : Balanced source.commands) (hb : source.Home p b) {b' : Nat}
    (hb' : source.Home p b') : b' = b := by
  obtain ⟨s, hs⟩ := exists_run_take hbal p
  rw [(home_iff hs).1 hb, (home_iff hs).1 hb']

theorem BracketAt.exists_command (h : source.BracketAt p) :
    ∃ c : Command, c.isBracket = true ∧ source[p]? = some c.toByte :=
  h.elim (fun h => ⟨.loopOpen, rfl, h⟩) fun h => ⟨.loopClose, rfl, h⟩

theorem BracketAt.lt (h : source.BracketAt p) : p < source.length :=
  h.elim (fun h => (List.getElem?_eq_some_iff.1 h).1) fun h => (List.getElem?_eq_some_iff.1 h).1

/-- After a bracket, no code goes to its home any more. -/
theorem home_ne_of_lt (hbal : Balanced source.commands) (hp : source.BracketAt p) (hpq : p < q)
    (hb : source.Home p b) : ¬ source.Home q b := by
  obtain ⟨c, hc, hbyte⟩ := hp.exists_command
  obtain ⟨s, hs⟩ := exists_run_take hbal p
  obtain ⟨t, ht⟩ := exists_run_take hbal q
  have hvalid := Nesting.valid_start.run hs
  rw [home_iff ht, (home_iff hs).1 hb]
  rw [commands_take_split hpq hbyte, Nesting.run_append_of_eq hs] at ht
  exact Ne.symm (Nesting.current_ne_of_bracket hvalid hc ht)

/-- Different places have different homes. -/
theorem home_injective (hbal : Balanced source.commands) (hp : source.Place p)
    (hq : source.Place q) (hbp : source.Home p b) (hbq : source.Home q b) : p = q := by
  have hle : ∀ {p q}, source.Place p → source.Place q → source.Home p b → source.Home q b →
      ¬ p < q := by
    intro p q hp hq hbp hbq hlt
    rcases hp with hp | rfl
    · exact home_ne_of_lt hbal hp hlt hbp hbq
    · rcases hq with hq | rfl
      · exact absurd hq.lt (by omega)
      · exact Nat.lt_irrefl _ hlt
  have h₁ := hle hp hq hbp hbq
  have h₂ := hle hq hp hbq hbp
  omega

/-- Every block is the home of a place. -/
theorem exists_place (hbal : Balanced source.commands)
    (hb : b ≤ 2 * source.commands.count .loopOpen) : ∃ p, source.Place p ∧ source.Home p b := by
  obtain ⟨t, ht, hempty⟩ := exists_run_all hbal
  have hopened := Nesting.opened_run ht
  simp only [Nat.zero_add] at hopened
  rcases Nesting.exists_home ht (hopened ▸ hb) with hlast | ⟨pre, c, post, u, hcs, hc, hu, rfl⟩ | hfin
  · -- at the end only the current block is unfinished
    have hb : b = t.current := by simpa [Nesting.unfinished, Nesting.pending, hempty] using hlast
    refine ⟨source.length, .inr rfl, ?_⟩
    rw [home_iff (by rw [List.take_length]; exact ht)]
    exact hb
  · obtain ⟨p, hp, hpre, -⟩ := exists_offset hcs
    refine ⟨p, .inl ?_, (home_iff (hpre ▸ hu)).2 rfl⟩
    cases c with
    | loopOpen => exact .inl hp
    | loopClose => exact .inr hp
    | _ => cases hc
  · -- before the first command no block is finished
    have hzero : b = 0 := Nat.le_zero.1 hfin.1
    exact absurd (hzero ▸ List.mem_cons_self) hfin.2

/-! ## Loops -/

theorem exists_closing (hbal : Balanced source.commands)
    (hi : source[i]? = some (Command.toByte .loopOpen)) : ∃ j, source.Matches i j := by
  obtain ⟨s, hs⟩ := exists_run_take hbal i
  obtain ⟨t, ht, hempty⟩ := exists_run_all hbal
  rw [commands_split hi, Nesting.run_append_of_eq hs, Nesting.run_cons, Nesting.step_open,
    Option.bind_some] at ht
  obtain ⟨mid, rest, hmid, hbalanced⟩ := Nesting.exists_close ht (by simp [hempty])
  obtain ⟨k, hk, rfl, -⟩ := exists_offset hmid
  rw [List.getElem?_drop] at hk
  refine ⟨i + 1 + k, by omega, hi, hk, ?_⟩
  rwa [List.drop_take, Nat.add_sub_cancel_left]

theorem exists_opening (hbal : Balanced source.commands)
    (hj : source[j]? = some (Command.toByte .loopClose)) : ∃ i, source.Matches i j := by
  obtain ⟨s, hs⟩ := exists_run_take hbal j
  obtain ⟨t, ht⟩ := exists_run_take hbal (j + 1)
  rw [commands_take_succ hj, Nesting.run_append_of_eq hs, Nesting.run_cons] at ht
  obtain ⟨u, hu, -⟩ := Option.bind_eq_some_iff.1 ht
  cases hstack : s.stack with
  | nil =>
    rw [Nesting.step_close_nil hstack] at hu
    cases hu
  | cons loop rest =>
    obtain ⟨i, hmatch, -⟩ := exists_matches hs hstack hj
    exact ⟨i, hmatch⟩

/-- Every bracket belongs to a loop. -/
theorem BracketAt.exists_matches (hbal : Balanced source.commands) (hp : source.BracketAt p) :
    ∃ i j, source.Matches i j ∧ (p = i ∨ p = j) := by
  rcases hp with hp | hp
  · obtain ⟨j, hmatch⟩ := exists_closing hbal hp
    exact ⟨p, j, hmatch, .inl rfl⟩
  · obtain ⟨i, hmatch⟩ := exists_opening hbal hp
    exact ⟨i, p, hmatch, .inr rfl⟩

/-- A bracket closes a loop before any later one can. -/
theorem Matches.not_lt (h : source.Matches i j) {j' : Nat} (h' : source.Matches i j') :
    ¬ j < j' := by
  intro hlt
  have hnested := h'.between.nested
  have hmid : ((source.take j').drop (i + 1)).take (j - (i + 1)) =
      (source.take j).drop (i + 1) := by
    rw [List.drop_take, List.drop_take, List.take_take, Nat.min_eq_left (by omega)]
  rw [commands_split (getElem?_drop_of_lt (getElem?_take_of_lt h.closes hlt) h.lt), hmid] at hnested
  exact h.between.not_nested_close hnested

theorem Matches.closing_unique (h : source.Matches i j) {j' : Nat} (h' : source.Matches i j') :
    j' = j := by
  have h₁ := h.not_lt h'
  have h₂ := h'.not_lt h
  omega

theorem loopNumber_lt (hi : source[i]? = some (Command.toByte .loopOpen)) (hij : i < j) :
    source.loopNumber i < source.loopNumber j := by
  rw [loopNumber, loopNumber, ← count_commands .loopOpen (source.take j),
    commands_take_split hij hi, List.count_append, ← count_commands]
  simp

/-- The number of a loop tells where it is opened. -/
theorem loopNumber_injective (hi : source[i]? = some (Command.toByte .loopOpen))
    (hj : source[j]? = some (Command.toByte .loopOpen))
    (h : source.loopNumber i = source.loopNumber j) : i = j := by
  rcases Nat.lt_trichotomy i j with hlt | heq | hlt
  · have := loopNumber_lt hi hlt
    omega
  · exact heq
  · have := loopNumber_lt hj hlt
    omega

/-- A bracket that opens a loop has no other between it and the one that closes it. -/
theorem Matches.not_lt_opening (h : source.Matches i j) {i' : Nat} (h' : source.Matches i' j) :
    ¬ i < i' := by
  intro hlt
  have houter := h.between
  have hinner := h'.between.closed
  have hrest : ((source.take j).drop (i + 1)).drop (i' - (i + 1) + 1) =
      (source.take j).drop (i' + 1) := by
    rw [List.drop_drop, show i + 1 + (i' - (i + 1) + 1) = i' + 1 by omega]
  have hopens := getElem?_drop_of_lt (getElem?_take_of_lt h'.opens h'.lt) hlt
  rw [commands_split hopens, hrest] at houter
  have hclosed := houter.closed
  have hnested := (nested_append.1 houter.nested).1 _ (Nat.le_refl _)
  rw [List.take_length] at hnested
  simp only [List.count_append, List.count_cons_self] at hclosed
  rw [List.count_cons_of_ne (by decide)] at hclosed
  omega

theorem Matches.opening_unique (h : source.Matches i j) {i' : Nat} (h' : source.Matches i' j) :
    i' = i := by
  have h₁ := h.not_lt_opening h'
  have h₂ := h'.not_lt_opening h
  omega

/-- The loops have all the numbers from one on. -/
theorem exists_loopNumber {k : Nat} (hk : k < source.count (Command.toByte .loopOpen)) :
    ∃ i, source[i]? = some (Command.toByte .loopOpen) ∧ source.loopNumber i = k + 1 := by
  induction source generalizing k with
  | nil => simp at hk
  | cons byte rest ih =>
    by_cases hbyte : byte = Command.toByte .loopOpen
    · subst hbyte
      rw [List.count_cons_self] at hk
      cases k with
      | zero => exact ⟨0, rfl, rfl⟩
      | succ k =>
        obtain ⟨i, hi, hnumber⟩ := ih (Nat.lt_of_succ_lt_succ hk)
        refine ⟨i + 1, hi, ?_⟩
        rw [loopNumber] at hnumber ⊢
        rw [List.take_succ_cons, List.count_cons_self, hnumber]
    · rw [List.count_cons_of_ne hbyte] at hk
      obtain ⟨i, hi, hnumber⟩ := ih hk
      refine ⟨i + 1, hi, ?_⟩
      rw [loopNumber] at hnumber ⊢
      rw [List.take_succ_cons, List.count_cons_of_ne hbyte, hnumber]

/-- The opening bracket of a loop stands in an earlier block than the closing one. -/
theorem Matches.home_lt (hbal : Balanced source.commands) (h : source.Matches i j)
    {a : Nat} (ha : source.Home i a) (hb : source.Home j b) : a < b := by
  obtain ⟨s, hs⟩ := exists_run_take hbal j
  obtain ⟨t, ht, -, hlt⟩ := h.run hs
  rw [(home_iff ht).1 ha, (home_iff hs).1 hb]
  have := (Nesting.valid_start.run ht).le t.current List.mem_cons_self
  omega

theorem home_lt_body (hbal : Balanced source.commands) (hb : source.Home i b) :
    b < 2 * source.loopNumber i - 1 := by
  obtain ⟨s, hs⟩ := exists_run_take hbal i
  rw [(home_iff hs).1 hb, ← opened_of_run hs]
  have := (Nesting.valid_start.run hs).le s.current List.mem_cons_self
  omega

/-- A block that is not the first belongs to a loop. -/
theorem exists_loop (hbal : Balanced source.commands)
    (hb : b ≤ 2 * source.commands.count .loopOpen) (hpos : 0 < b) :
    ∃ i j, source.Matches i j ∧ (b = 2 * source.loopNumber i - 1 ∨ b = 2 * source.loopNumber i) := by
  obtain ⟨p, -, hhome⟩ := exists_place hbal hb
  cases hhome with
  | start => exact absurd hpos (Nat.lt_irrefl 0)
  | body last opens =>
    obtain ⟨j, hmatch⟩ := exists_closing hbal opens
    exact ⟨_, j, hmatch, .inl rfl⟩
  | after last loop => exact ⟨_, _, loop, .inr rfl⟩

theorem home_lt (hbal : Balanced source.commands) (hb : source.Home p b) :
    b < 1 + 2 * source.count (Command.toByte .loopOpen) := by
  have hlt := home_lt_body hbal hb
  have hle : (source.take p).count (Command.toByte .loopOpen) ≤
      source.count (Command.toByte .loopOpen) := (List.take_sublist p source).count_le _
  rw [loopNumber] at hlt
  omega

theorem housed (hbal : Balanced source.commands) :
    source.Housed (1 + 2 * source.count (Command.toByte .loopOpen)) where
  home := by
    intro p _
    obtain ⟨b, hb⟩ := exists_home hbal p
    exact ⟨b, hb, fun b' hb' => home_unique hbal hb hb'⟩
  lt := fun _ _ _ hb => home_lt hbal hb
  injective := fun _ _ _ hp hq hbp hbq => home_injective hbal hp hq hbp hbq
  covers := by
    intro b hb
    rw [← count_commands] at hb
    exact exists_place hbal (by omega)

theorem paired (hbal : Balanced source.commands) : source.Paired where
  closing := by
    intro i hi
    obtain ⟨j, hj⟩ := exists_closing hbal hi
    exact ⟨j, hj, fun j' hj' => hj.closing_unique hj'⟩
  opening := by
    intro j hj
    obtain ⟨i, hi⟩ := exists_opening hbal hj
    exact ⟨i, hi, fun i' hi' => hi.opening_unique hi'⟩
  numbered := by
    intro k hpos hk
    have hlt : k - 1 < source.count (Command.toByte .loopOpen) := by omega
    obtain ⟨i, hi, hnumber⟩ := exists_loopNumber hlt
    have hk : source.loopNumber i = k := by omega
    exact ⟨i, ⟨hi, hk⟩, fun i' hi' => loopNumber_injective hi'.1 hi (hi'.2.trans hk.symm)⟩

end Source

end TapeFlow
