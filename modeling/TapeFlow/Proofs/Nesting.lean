import TapeFlow.Source.Token

/-!
# Matching brackets

What it means that the brackets of a program match, and a small machine that
reads a program and keeps track of the loops that are open.

* `Balanced` — no prefix closes more loops than it opens, and in the end all
  loops are closed.
* `kept_by_run` — what each command keeps, a program keeps, on any machine that reads it.
* `Nesting` — the loops opened so far, those still open, and the number of the
  block that code goes to.  A loop that is the `k`-th to be opened, counted from
  zero, owns the blocks `bodyBlock k` and `afterBlock k`.
* `Nesting.run_isSome_iff` — the machine gets stuck exactly at a closing bracket
  with nothing to close.
* `Nesting.exists_open_of_stack` / `Nesting.exists_close` — the loop on top of
  the stack is the one whose opening bracket is followed by balanced code only,
  and the bracket that takes it off closes it.
* `Nesting.current_ne_of_bracket` / `Nesting.exists_home` — no two brackets stand
  in the same block, and every block but the unfinished ones holds a bracket.
-/

namespace TapeFlow

/-- The commands of a source, in order. -/
def Source.commands (source : Source) : List Command := source.filterMap Command.ofByte?

/-- The two commands that change the block code goes to. -/
def Command.isBracket : Command → Bool
  | loopOpen | loopClose => true
  | _ => false

namespace Command

/-- The cases of a command that is no bracket. -/
theorem straight_cases {motive : (c : Command) → c.isBracket = false → Prop}
    (right : motive .right rfl) (left : motive .left rfl) (increment : motive .increment rfl)
    (decrement : motive .decrement rfl) (output : motive .output rfl) (input : motive .input rfl)
    (c : Command) (hc : c.isBracket = false) : motive c hc := by
  cases c with
  | right => exact right
  | left => exact left
  | increment => exact increment
  | decrement => exact decrement
  | output => exact output
  | input => exact input
  | loopOpen | loopClose => cases hc

theorem eq_of_isBracket {c : Command} (hc : c.isBracket = true) :
    c = .loopOpen ∨ c = .loopClose := by
  cases c with
  | loopOpen => exact .inl rfl
  | loopClose => exact .inr rfl
  | _ => cases hc

/-- A command that is no bracket opens nothing and closes nothing. -/
theorem count_brackets {c : Command} (hc : c.isBracket = false) :
    [c].count .loopOpen = 0 ∧ [c].count .loopClose = 0 := by
  cases c, hc using straight_cases <;> decide

end Command

/-- Inside `depth` open loops, no prefix closes more than is open. -/
def Nested (depth : Nat) (cs : List Command) : Prop :=
  ∀ k ≤ cs.length, (cs.take k).count .loopClose ≤ depth + (cs.take k).count .loopOpen

/-- The brackets of a program match. -/
structure Balanced (cs : List Command) : Prop where
  /-- Everything that is opened is closed. -/
  closed : cs.count .loopClose = cs.count .loopOpen
  /-- Nothing is closed before it is opened. -/
  nested : Nested 0 cs

instance (depth : Nat) (cs : List Command) : Decidable (Nested depth cs) :=
  inferInstanceAs (Decidable (∀ k ≤ cs.length, _))

instance (cs : List Command) : Decidable (Balanced cs) :=
  decidable_of_iff (cs.count .loopClose = cs.count .loopOpen ∧ Nested 0 cs)
    ⟨fun h => ⟨h.1, h.2⟩, fun h => ⟨h.1, h.2⟩⟩

/-! ## Prefixes -/

theorem count_cons_eq_add (x c : Command) (cs : List Command) :
    (c :: cs).count x = [c].count x + cs.count x := by
  rw [← List.singleton_append, List.count_append]

theorem nested_nil (depth : Nat) : Nested depth [] := by
  intro k _
  simp

/-- A program is nested if its first command is and the rest is, at the depth
after that command. -/
theorem nested_cons {depth : Nat} {c : Command} {cs : List Command} :
    Nested depth (c :: cs) ↔
      [c].count .loopClose ≤ depth + [c].count .loopOpen ∧
        Nested (depth + [c].count .loopOpen - [c].count .loopClose) cs := by
  constructor
  · intro h
    have hc : [c].count .loopClose ≤ depth + [c].count .loopOpen := by
      simpa using h 1 (by simp)
    refine ⟨hc, fun k hk => ?_⟩
    have := h (k + 1) (by simpa using hk)
    rw [List.take_succ_cons, count_cons_eq_add, count_cons_eq_add .loopOpen] at this
    omega
  · rintro ⟨hc, h⟩ k hk
    cases k with
    | zero => simp
    | succ k =>
      have := h k (by simpa using hk)
      rw [List.take_succ_cons, count_cons_eq_add, count_cons_eq_add .loopOpen]
      omega

theorem nested_append {depth : Nat} {as bs : List Command} :
    Nested depth (as ++ bs) ↔
      Nested depth as ∧ Nested (depth + as.count .loopOpen - as.count .loopClose) bs := by
  induction as generalizing depth with
  | nil => simp [nested_nil]
  | cons c as ih =>
    rw [List.cons_append, nested_cons, nested_cons, ih, and_assoc]
    refine and_congr_right fun hc => and_congr_right fun ha => ?_
    -- both sides speak of the depth after `c :: as`
    have hdepth : depth + [c].count .loopOpen - [c].count .loopClose + as.count .loopOpen
        - as.count .loopClose = depth + ([c].count .loopOpen + as.count .loopOpen)
        - ([c].count .loopClose + as.count .loopClose) := by omega
    rw [count_cons_eq_add .loopOpen c as, count_cons_eq_add .loopClose c as, hdepth]

theorem Nested.mono {depth depth' : Nat} {cs : List Command} (h : Nested depth cs)
    (hd : depth ≤ depth') : Nested depth' cs := by
  intro k hk
  have := h k hk
  omega

theorem Balanced.nil : Balanced [] := ⟨rfl, nested_nil 0⟩

theorem Balanced.append {as bs : List Command} (ha : Balanced as) (hb : Balanced bs) :
    Balanced (as ++ bs) := by
  refine ⟨by rw [List.count_append, List.count_append, ha.closed, hb.closed], ?_⟩
  rw [nested_append]
  exact ⟨ha.nested, hb.nested.mono (Nat.zero_le _)⟩

/-- Balanced code leaves nothing that a bracket after it could close. -/
theorem Balanced.not_nested_close {mid rest : List Command} (h : Balanced mid) :
    ¬ Nested 0 (mid ++ .loopClose :: rest) := by
  rw [nested_append, nested_cons, h.closed]
  simp

theorem Balanced.singleton {c : Command} (hc : c.isBracket = false) : Balanced [c] := by
  cases c, hc using Command.straight_cases <;> decide

/-- A loop around balanced code. -/
theorem Balanced.loop {mid : List Command} (h : Balanced mid) :
    Balanced (.loopOpen :: mid ++ [.loopClose]) := by
  refine ⟨by simp [h.closed], ?_⟩
  rw [nested_append, nested_cons]
  refine ⟨⟨by decide, h.nested.mono (Nat.zero_le _)⟩, ?_⟩
  rw [nested_cons]
  refine ⟨?_, nested_nil _⟩
  simp [h.closed]

/-! ## Reading a program -/

/-- A machine that reads a program command by command keeps to the end what each command
keeps. -/
theorem kept_by_run {σ : Type} {step : σ → Command → Option σ}
    {run : σ → List Command → Option σ} (hnil : ∀ s, run s [] = some s)
    (hcons : ∀ s c cs, run s (c :: cs) = (step s c).bind fun t => run t cs) {P : σ → Prop}
    (hstep : ∀ {s t c}, P s → step s c = some t → P t) {s t : σ} {cs : List Command} (hs : P s)
    (h : run s cs = some t) : P t := by
  induction cs generalizing s with
  | nil =>
    rw [hnil] at h
    cases h
    exact hs
  | cons c cs ih =>
    rw [hcons] at h
    obtain ⟨u, hu, hr⟩ := Option.bind_eq_some_iff.1 h
    exact ih (hstep hs hu) hr

/-- What a program has done with its loops so far.  Loops are counted from zero
in the order in which they are opened. -/
structure Nesting where
  /-- The number of loops opened. -/
  opened : Nat := 0
  /-- The block that code goes to. -/
  current : Nat := 0
  /-- The loops that are open, the innermost first. -/
  stack : List Nat := []
  deriving DecidableEq

namespace Nesting

/-- The block that the body of a loop starts with. -/
def bodyBlock (loop : Nat) : Nat := 2 * loop + 1

/-- The block after a loop. -/
def afterBlock (loop : Nat) : Nat := 2 * loop + 2

/-- Read one command.  A closing bracket needs an open loop. -/
def step (s : Nesting) : Command → Option Nesting
  | .loopOpen => some ⟨s.opened + 1, bodyBlock s.opened, s.opened :: s.stack⟩
  | .loopClose =>
    match s.stack with
    | [] => none
    | loop :: rest => some ⟨s.opened, afterBlock loop, rest⟩
  | _ => some s

/-- Read a program. -/
def run (s : Nesting) : List Command → Option Nesting
  | [] => some s
  | c :: cs => (s.step c).bind fun t => t.run cs

@[simp] theorem run_nil (s : Nesting) : s.run [] = some s := rfl

theorem run_cons (s : Nesting) (c : Command) (cs : List Command) :
    s.run (c :: cs) = (s.step c).bind fun t => t.run cs := rfl

theorem run_append (s : Nesting) (as bs : List Command) :
    s.run (as ++ bs) = (s.run as).bind fun t => t.run bs := by
  induction as generalizing s with
  | nil => rfl
  | cons c as ih =>
    rw [List.cons_append, run_cons, run_cons, Option.bind_assoc]
    exact congrArg _ (funext fun t => ih t)

theorem run_append_of_eq {s t : Nesting} {as : List Command} (h : s.run as = some t)
    (bs : List Command) : s.run (as ++ bs) = t.run bs := by
  rw [run_append, h, Option.bind_some]

theorem step_straight (s : Nesting) {c : Command} (hc : c.isBracket = false) :
    s.step c = some s := by
  cases c, hc using Command.straight_cases <;> rfl

theorem run_straight (s : Nesting) {cs : List Command} (h : ∀ c ∈ cs, c.isBracket = false) :
    s.run cs = some s := by
  induction cs with
  | nil => rfl
  | cons c cs ih =>
    rw [run_cons, step_straight s (h c List.mem_cons_self), Option.bind_some]
    exact ih fun d hd => h d (List.mem_cons_of_mem c hd)

theorem step_open (s : Nesting) :
    s.step .loopOpen = some ⟨s.opened + 1, bodyBlock s.opened, s.opened :: s.stack⟩ := rfl

theorem step_close {s : Nesting} {loop : Nat} {rest : List Nat} (h : s.stack = loop :: rest) :
    s.step .loopClose = some ⟨s.opened, afterBlock loop, rest⟩ := by
  rw [step, h]

theorem step_close_nil {s : Nesting} (h : s.stack = []) : s.step .loopClose = none := by
  rw [step, h]

/-- What reading one command can do: nothing, open a loop, or close the innermost. -/
theorem step_cases {s t : Nesting} {c : Command} (h : s.step c = some t) :
    (c.isBracket = false ∧ t = s) ∨
      (c = .loopOpen ∧ t = ⟨s.opened + 1, bodyBlock s.opened, s.opened :: s.stack⟩) ∨
      (c = .loopClose ∧ ∃ loop rest, s.stack = loop :: rest ∧
        t = ⟨s.opened, afterBlock loop, rest⟩) := by
  cases hb : c.isBracket with
  | false =>
    rw [step_straight s hb] at h
    exact .inl ⟨rfl, (Option.some.inj h).symm⟩
  | true =>
    obtain rfl | rfl := Command.eq_of_isBracket hb
    · exact .inr (.inl ⟨rfl, (Option.some.inj h).symm⟩)
    · refine .inr (.inr ⟨rfl, ?_⟩)
      cases hs : s.stack with
      | nil => rw [step_close_nil hs] at h; cases h
      | cons loop rest =>
        rw [step_close hs] at h
        exact ⟨loop, rest, rfl, (Option.some.inj h).symm⟩

/-- Only a closing bracket with no open loop is refused. -/
theorem step_eq_none {s : Nesting} {c : Command} (h : s.step c = none) :
    c = .loopClose ∧ s.stack = [] := by
  cases hb : c.isBracket with
  | false => rw [step_straight s hb] at h; cases h
  | true =>
    obtain rfl | rfl := Command.eq_of_isBracket hb
    · cases h
    · refine ⟨rfl, ?_⟩
      cases hs : s.stack with
      | nil => rfl
      | cons loop rest => rw [step_close hs] at h; cases h

theorem opened_step {s t : Nesting} {c : Command} (h : s.step c = some t) :
    t.opened = s.opened + [c].count .loopOpen := by
  obtain ⟨hc, rfl⟩ | ⟨rfl, rfl⟩ | ⟨rfl, loop, rest, _, rfl⟩ := step_cases h
  · rw [(Command.count_brackets hc).1, Nat.add_zero]
  · rfl
  · rfl

theorem length_stack_step {s t : Nesting} {c : Command} (h : s.step c = some t) :
    t.stack.length + [c].count .loopClose = s.stack.length + [c].count .loopOpen := by
  obtain ⟨hc, rfl⟩ | ⟨rfl, rfl⟩ | ⟨rfl, loop, rest, hs, rfl⟩ := step_cases h
  · obtain ⟨hopen, hclose⟩ := Command.count_brackets hc
    rw [hopen, hclose]
  · rfl
  · rw [hs]; rfl

theorem opened_run {s t : Nesting} {cs : List Command} (h : s.run cs = some t) :
    t.opened = s.opened + cs.count .loopOpen := by
  induction cs generalizing s with
  | nil => cases h; rfl
  | cons c cs ih =>
    rw [run_cons] at h
    obtain ⟨u, hu, hr⟩ := Option.bind_eq_some_iff.1 h
    rw [ih hr, opened_step hu, count_cons_eq_add .loopOpen c cs]
    omega

theorem length_stack_run {s t : Nesting} {cs : List Command} (h : s.run cs = some t) :
    t.stack.length + cs.count .loopClose = s.stack.length + cs.count .loopOpen := by
  induction cs generalizing s with
  | nil => cases h; rfl
  | cons c cs ih =>
    rw [run_cons] at h
    obtain ⟨u, hu, hr⟩ := Option.bind_eq_some_iff.1 h
    have h₁ := length_stack_step hu
    have h₂ := ih hr
    rw [count_cons_eq_add .loopOpen c cs, count_cons_eq_add .loopClose c cs]
    omega

/-- The machine reads a program to its end exactly if the program is nested at
the depth of the stack. -/
theorem run_isSome_iff {s : Nesting} {cs : List Command} :
    (s.run cs).isSome ↔ Nested s.stack.length cs := by
  induction cs generalizing s with
  | nil => simp [nested_nil]
  | cons c cs ih =>
    rw [run_cons, nested_cons]
    cases ht : s.step c with
    | none =>
      obtain ⟨rfl, hs⟩ := step_eq_none ht
      simp [hs]
    | some t =>
      have hlen := length_stack_step ht
      rw [Option.bind_some, ih, show s.stack.length + [c].count .loopOpen
        - [c].count .loopClose = t.stack.length by omega]
      exact ⟨fun h => ⟨by omega, h⟩, fun h => h.2⟩

theorem exists_run {s : Nesting} {cs : List Command} (h : Nested s.stack.length cs) :
    ∃ t, s.run cs = some t :=
  Option.isSome_iff_exists.1 (run_isSome_iff.2 h)

/-- Where the machine gets stuck there is a closing bracket and no open loop. -/
theorem exists_refused {s : Nesting} {cs : List Command} (h : s.run cs = none) :
    ∃ pre post t, cs = pre ++ .loopClose :: post ∧ s.run pre = some t ∧ t.stack = [] := by
  induction cs generalizing s with
  | nil => cases h
  | cons c cs ih =>
    rw [run_cons] at h
    cases ht : s.step c with
    | none =>
      obtain ⟨rfl, hs⟩ := step_eq_none ht
      exact ⟨[], cs, s, rfl, rfl, hs⟩
    | some t =>
      rw [ht, Option.bind_some] at h
      obtain ⟨pre, post, u, rfl, hu, hs⟩ := ih h
      exact ⟨c :: pre, post, u, rfl, by rw [run_cons, ht, Option.bind_some, hu], hs⟩

/-! ## The stack and the brackets that match -/

/-- Where a stack shrinks below one of its loops, some closing bracket did it,
and the code up to that bracket closes just what lies above. -/
theorem exists_close_of_depth {s t : Nesting} {cs : List Command} (h : s.run cs = some t)
    (above : Nat) (ha : above < s.stack.length) (ht : t.stack.length < s.stack.length - above) :
    ∃ mid rest, cs = mid ++ .loopClose :: rest ∧
      mid.count .loopClose = mid.count .loopOpen + above ∧ Nested above mid := by
  induction cs generalizing s above with
  | nil => cases h; omega
  | cons c cs ih =>
    rw [run_cons] at h
    obtain ⟨u, hu, hr⟩ := Option.bind_eq_some_iff.1 h
    obtain ⟨hc, rfl⟩ | ⟨rfl, rfl⟩ | ⟨rfl, loop, rest, hl, rfl⟩ := step_cases hu
    · obtain ⟨mid, rest, rfl, hcount, hmid⟩ := ih hr above ha ht
      obtain ⟨hopen, hclose⟩ := Command.count_brackets hc
      refine ⟨c :: mid, rest, rfl, ?_, ?_⟩
      · rw [count_cons_eq_add .loopOpen c mid, count_cons_eq_add .loopClose c mid]
        omega
      · rw [nested_cons, hopen, hclose]
        exact ⟨Nat.zero_le _, hmid⟩
    · obtain ⟨mid, rest, rfl, hcount, hmid⟩ := ih hr (above + 1)
        (by simpa using ha) (by simp; omega)
      refine ⟨.loopOpen :: mid, rest, rfl, by simp [hcount]; omega, ?_⟩
      rw [nested_cons]
      exact ⟨by simp, by simpa using hmid⟩
    · cases above with
      | zero => exact ⟨[], cs, rfl, rfl, nested_nil 0⟩
      | succ above =>
        rw [hl, List.length_cons] at ha ht
        obtain ⟨mid, rest', rfl, hcount, hmid⟩ := ih hr above
          (by simpa using ha) (by simp; omega)
        refine ⟨.loopClose :: mid, rest', rfl, by simp [hcount]; omega, ?_⟩
        rw [nested_cons]
        exact ⟨by simp, by simpa using hmid⟩

/-- A loop that is open before some code and not after it is closed in it, by a
bracket with balanced code before it. -/
theorem exists_close {s t : Nesting} {cs : List Command} (h : s.run cs = some t)
    (ht : t.stack.length < s.stack.length) :
    ∃ mid rest, cs = mid ++ .loopClose :: rest ∧ Balanced mid := by
  obtain ⟨mid, rest, hcs, hcount, hmid⟩ :=
    exists_close_of_depth h 0 (by omega) (by omega)
  exact ⟨mid, rest, hcs, hcount, hmid⟩

end Nesting

/-- A loop at the start of balanced code is closed in it, and both its body and
what follows are balanced. -/
theorem Balanced.exists_close {cs : List Command} (h : Balanced (.loopOpen :: cs)) :
    ∃ mid rest, cs = mid ++ .loopClose :: rest ∧ Balanced mid ∧ Balanced rest := by
  obtain ⟨t, ht⟩ := Nesting.exists_run (s := {}) h.nested
  have hlen := Nesting.length_stack_run ht
  rw [Nesting.run_cons, Nesting.step_open, Option.bind_some] at ht
  obtain ⟨mid, rest, rfl, hmid⟩ := Nesting.exists_close ht (by
    simp only [List.length_cons, List.length_nil] at hlen ⊢
    have := h.closed
    omega)
  refine ⟨mid, rest, rfl, hmid, ?_, ?_⟩
  · have hclosed := h.closed
    simp [hmid.closed] at hclosed
    omega
  · have hn := h.nested
    rw [nested_cons, nested_append, nested_cons] at hn
    simpa [hmid.closed] using hn.2.2.2

/-- Induction on balanced code: nothing, a command and balanced code, or a loop
and balanced code. -/
theorem Balanced.induction {motive : List Command → Prop} {cs : List Command} (h : Balanced cs)
    (nil : motive []) (straight : ∀ c cs, c.isBracket = false → motive cs → motive (c :: cs))
    (loop : ∀ mid rest, motive mid → motive rest →
      motive (.loopOpen :: mid ++ .loopClose :: rest)) : motive cs := by
  induction hn : cs.length using Nat.strongRecOn generalizing cs with
  | ind n ih =>
    cases cs with
    | nil => exact nil
    | cons c cs =>
      cases hc : c.isBracket with
      | false =>
        refine straight c cs hc (ih _ (by simp at hn; omega) ?_ rfl)
        obtain ⟨hopen, hclose⟩ := Command.count_brackets hc
        have hclosed := h.closed
        have hnested := h.nested
        rw [count_cons_eq_add, count_cons_eq_add .loopOpen] at hclosed
        rw [nested_cons, hopen, hclose] at hnested
        exact ⟨by omega, hnested.2⟩
      | true =>
        obtain rfl | rfl := Command.eq_of_isBracket hc
        · obtain ⟨mid, rest, rfl, hmid, hrest⟩ := h.exists_close
          simp only [List.length_cons, List.length_append] at hn
          exact loop mid rest (ih _ (by omega) hmid rfl) (ih _ (by omega) hrest rfl)
        · exact absurd (nested_cons.1 h.nested).1 (by decide)

namespace Nesting

/-- Balanced code can be read at any point and leaves the open loops as they
were.  After it, code goes on in the same block or in a new one. -/
theorem run_balanced (s : Nesting) {cs : List Command} (h : Balanced cs) :
    ∃ t, s.run cs = some t ∧ t.stack = s.stack ∧
      (t.current = s.current ∨ 2 * s.opened < t.current) := by
  revert s
  refine h.induction (motive := fun cs => ∀ s : Nesting, ∃ t, s.run cs = some t ∧
    t.stack = s.stack ∧ (t.current = s.current ∨ 2 * s.opened < t.current)) ?nil ?straight ?loop
  case nil => exact fun s => ⟨s, rfl, rfl, .inl rfl⟩
  case straight =>
    intro c cs hc ih s
    rw [run_cons, step_straight s hc, Option.bind_some]
    exact ih s
  case loop =>
    intro mid rest ihm ihr s
    obtain ⟨t, ht, hts, -⟩ := ihm ⟨s.opened + 1, bodyBlock s.opened, s.opened :: s.stack⟩
    have hopen : s.run (.loopOpen :: mid) = some t := ht
    have hopened := opened_run ht
    rw [run_append_of_eq hopen, run_cons, step_close hts, Option.bind_some]
    obtain ⟨u, hu, hus, hcurrent⟩ := ihr ⟨t.opened, afterBlock s.opened, s.stack⟩
    refine ⟨u, hu, hus, .inr ?_⟩
    simp only [afterBlock] at hopened hcurrent
    omega

/-- After the opening bracket of a loop and balanced code the loop is on top, and
code goes to a block that the loop made. -/
theorem run_open_balanced (s : Nesting) {mid : List Command} (h : Balanced mid) :
    ∃ t, s.run (.loopOpen :: mid) = some t ∧ t.stack = s.opened :: s.stack ∧
      2 * s.opened < t.current := by
  rw [run_cons, step_open, Option.bind_some]
  obtain ⟨t, ht, hs, hcurrent⟩ := run_balanced _ h
  refine ⟨t, ht, hs, ?_⟩
  simp only [bodyBlock] at hcurrent
  omega

/-- A whole loop leads to the block after it. -/
theorem run_loop (s : Nesting) {mid : List Command} (h : Balanced mid) :
    ∃ t, s.run (.loopOpen :: mid ++ [.loopClose]) = some t ∧
      t.current = afterBlock s.opened ∧ t.stack = s.stack := by
  obtain ⟨t, ht, hs, -⟩ := run_open_balanced s h
  refine ⟨⟨t.opened, afterBlock s.opened, s.stack⟩, ?_, rfl, rfl⟩
  rw [run_append_of_eq ht, run_cons, step_close hs, Option.bind_some, run_nil]

/-- The loop on top of the stack was opened by a bracket with balanced code
after it. -/
theorem exists_open_of_stack : ∀ {cs : List Command} {s : Nesting} {loop : Nat} {rest : List Nat},
    ({} : Nesting).run cs = some s → s.stack = loop :: rest →
    ∃ pre mid t, cs = pre ++ .loopOpen :: mid ∧ Balanced mid ∧
      ({} : Nesting).run pre = some t ∧ t.opened = loop ∧ t.stack = rest := by
  -- a closed loop at the end is skipped as a whole, so the induction is on the length
  intro cs
  induction hn : cs.length using Nat.strongRecOn generalizing cs with
  | ind n ih =>
    intro s loop rest hrun hstack
    rcases List.eq_nil_or_concat cs with rfl | ⟨cs', c, rfl⟩
    · cases hrun; cases hstack
    rw [List.concat_eq_append] at hrun hn ⊢
    rw [List.length_append, List.length_singleton] at hn
    rw [run_append] at hrun
    obtain ⟨u, hu, hstep⟩ := Option.bind_eq_some_iff.1 hrun
    rw [run_cons] at hstep
    obtain ⟨v, hv, hvs⟩ := Option.bind_eq_some_iff.1 hstep
    cases hvs
    obtain ⟨hc, rfl⟩ | ⟨rfl, rfl⟩ | ⟨rfl, inner, rest', hl, rfl⟩ := step_cases hv
    · obtain ⟨pre, mid, t, rfl, hmid, ht⟩ := ih _ (by omega) rfl hu hstack
      exact ⟨pre, mid ++ [c], t, by simp, hmid.append (.singleton hc), ht⟩
    · cases hstack
      exact ⟨cs', [], u, rfl, .nil, hu, rfl, rfl⟩
    · obtain ⟨pre₁, mid₁, t₁, rfl, hmid₁, ht₁, -, hs₁⟩ := ih _ (by omega) rfl hu hl
      have hrest : t₁.stack = loop :: rest := hs₁.trans hstack
      obtain ⟨pre, mid, t, rfl, hmid, ht⟩ :=
        ih _ (by simp at hn ⊢; omega) rfl ht₁ hrest
      exact ⟨pre, mid ++ (.loopOpen :: mid₁ ++ [.loopClose]), t, by simp,
        hmid.append hmid₁.loop, ht⟩

/-! ## Blocks -/

/-- The blocks after the loops that are open, the innermost first. -/
def pending (s : Nesting) : List Nat := s.stack.map afterBlock

/-- The blocks that still lack their end: the one code goes to, and the ones
code will go to when a loop is closed. -/
def unfinished (s : Nesting) : List Nat := s.current :: s.pending

/-- The unfinished blocks have been made, and they are all different. -/
structure Valid (s : Nesting) : Prop where
  /-- They are among the blocks made so far. -/
  le : ∀ b ∈ s.unfinished, b ≤ 2 * s.opened
  /-- None comes up twice. -/
  nodup : s.unfinished.Nodup

theorem valid_start : ({} : Nesting).Valid := ⟨by simp [unfinished, pending], by decide⟩

theorem unfinished_open (s : Nesting) :
    (⟨s.opened + 1, bodyBlock s.opened, s.opened :: s.stack⟩ : Nesting).unfinished =
      bodyBlock s.opened :: afterBlock s.opened :: s.pending := rfl

/-- A closing bracket finishes the current block and goes on in the next
unfinished one. -/
theorem unfinished_close {s : Nesting} {loop : Nat} {rest : List Nat}
    (h : s.stack = loop :: rest) :
    s.unfinished = s.current :: (⟨s.opened, afterBlock loop, rest⟩ : Nesting).unfinished := by
  rw [unfinished, pending, h]
  rfl

theorem Valid.pending_le {s : Nesting} (h : s.Valid) : ∀ b ∈ s.pending, b ≤ 2 * s.opened :=
  fun b hb => h.le b (List.mem_cons_of_mem _ hb)

theorem Valid.lt_opened {s : Nesting} (h : s.Valid) {loop : Nat} (hl : loop ∈ s.stack) :
    loop < s.opened := by
  have := h.pending_le (afterBlock loop) (List.mem_map_of_mem hl)
  rw [afterBlock] at this
  omega

theorem Valid.step {s t : Nesting} {c : Command} (h : s.Valid) (hstep : s.step c = some t) :
    t.Valid := by
  obtain ⟨_, rfl⟩ | ⟨rfl, rfl⟩ | ⟨rfl, loop, rest, hs, rfl⟩ := step_cases hstep
  · exact h
  · constructor
    · intro b hb
      rw [unfinished_open] at hb
      rcases List.mem_cons.1 hb with rfl | hb
      · simp only [bodyBlock]; omega
      rcases List.mem_cons.1 hb with rfl | hb
      · simp only [afterBlock]; omega
      · exact Nat.le_trans (h.pending_le b hb) (by simp only; omega)
    · have hp : s.pending.Nodup := (List.nodup_cons.1 h.nodup).2
      have hlt : ∀ n, 2 * s.opened < n → n ∉ s.pending := fun n hn hm => by
        have := h.pending_le n hm
        omega
      rw [unfinished_open, List.nodup_cons, List.nodup_cons, List.mem_cons]
      refine ⟨?_, hlt _ (by simp only [afterBlock]; omega), hp⟩
      rintro (he | hm)
      · simp only [bodyBlock, afterBlock] at he; omega
      · exact hlt _ (by simp only [bodyBlock]; omega) hm
  · have hu := unfinished_close hs
    refine ⟨fun b hb => h.le b (by rw [hu]; exact List.mem_cons_of_mem _ hb), ?_⟩
    have := h.nodup
    rw [hu] at this
    exact (List.nodup_cons.1 this).2

theorem Valid.run {s t : Nesting} {cs : List Command} (h : s.Valid) (hrun : s.run cs = some t) :
    t.Valid :=
  kept_by_run run_nil run_cons Valid.step h hrun

/-- A block that has been made and has its end. -/
def Finished (s : Nesting) (b : Nat) : Prop := b ≤ 2 * s.opened ∧ b ∉ s.unfinished

/-- A finished block stays finished: later blocks have larger numbers. -/
theorem Finished.step {s t : Nesting} {c : Command} {b : Nat} (h : s.Finished b)
    (hstep : s.step c = some t) : t.Finished b := by
  obtain ⟨hle, hnot⟩ := h
  obtain ⟨_, rfl⟩ | ⟨rfl, rfl⟩ | ⟨rfl, loop, rest, hs, rfl⟩ := step_cases hstep
  · exact ⟨hle, hnot⟩
  · refine ⟨by simp only; omega, ?_⟩
    rw [unfinished_open]
    intro hb
    rcases List.mem_cons.1 hb with rfl | hb
    · simp only [bodyBlock] at hle; omega
    rcases List.mem_cons.1 hb with rfl | hb
    · simp only [afterBlock] at hle; omega
    · exact hnot (List.mem_cons_of_mem _ hb)
  · rw [unfinished_close hs] at hnot
    exact ⟨hle, fun hb => hnot (List.mem_cons_of_mem _ hb)⟩

theorem Finished.run {s t : Nesting} {cs : List Command} {b : Nat} (h : s.Finished b)
    (hrun : s.run cs = some t) : t.Finished b :=
  kept_by_run run_nil run_cons Finished.step h hrun

/-- A bracket finishes the block it stands in. -/
theorem finished_of_bracket {s t : Nesting} {c : Command} (h : s.Valid)
    (hc : c.isBracket = true) (hstep : s.step c = some t) : t.Finished s.current := by
  have hle : s.current ≤ 2 * s.opened := h.le _ List.mem_cons_self
  obtain ⟨hc', rfl⟩ | ⟨rfl, rfl⟩ | ⟨rfl, loop, rest, hs, rfl⟩ := step_cases hstep
  · rw [hc] at hc'; cases hc'
  · refine ⟨by simp only; omega, ?_⟩
    rw [unfinished_open]
    intro hb
    rcases List.mem_cons.1 hb with he | hb
    · simp only [bodyBlock] at he; omega
    rcases List.mem_cons.1 hb with he | hb
    · simp only [afterBlock] at he; omega
    · exact (List.nodup_cons.1 h.nodup).1 hb
  · have := h.nodup
    rw [unfinished_close hs] at this
    exact ⟨hle, (List.nodup_cons.1 this).1⟩

/-- After a bracket, code never goes to the block of the bracket again. -/
theorem current_ne_of_bracket {s t : Nesting} {c : Command} {cs : List Command} (h : s.Valid)
    (hc : c.isBracket = true) (hrun : s.run (c :: cs) = some t) : t.current ≠ s.current := by
  rw [run_cons] at hrun
  obtain ⟨u, hu, hr⟩ := Option.bind_eq_some_iff.1 hrun
  have hfin := (finished_of_bracket h hc hu).run hr
  intro he
  exact hfin.2 (he ▸ List.mem_cons_self)

/-- Every block made in the end is unfinished, or some bracket stands in it, or
it was finished before. -/
theorem exists_home {s t : Nesting} {cs : List Command} (hrun : s.run cs = some t) {b : Nat}
    (hb : b ≤ 2 * t.opened) :
    b ∈ t.unfinished ∨ (∃ pre c post u, cs = pre ++ c :: post ∧ c.isBracket = true ∧
      s.run pre = some u ∧ u.current = b) ∨ s.Finished b := by
  induction cs generalizing s with
  | nil =>
    cases hrun
    by_cases hm : b ∈ t.unfinished
    · exact .inl hm
    · exact .inr (.inr ⟨hb, hm⟩)
  | cons c cs ih =>
    rw [run_cons] at hrun
    obtain ⟨u, hu, hr⟩ := Option.bind_eq_some_iff.1 hrun
    rcases ih hr with hm | ⟨pre, c', post, v, rfl, hc', hv, hvb⟩ | hfin
    · exact .inl hm
    · refine .inr (.inl ⟨c :: pre, c', post, v, rfl, hc', ?_, hvb⟩)
      rw [run_cons, hu, Option.bind_some, hv]
    -- finished after `c`: either `c` itself finished it, or it was finished before
    by_cases hcur : s.current = b ∧ c.isBracket = true
    · exact .inr (.inl ⟨[], c, cs, s, rfl, hcur.2, rfl, hcur.1⟩)
    refine .inr (.inr ?_)
    obtain ⟨_, rfl⟩ | ⟨rfl, rfl⟩ | ⟨rfl, loop, rest, hs, rfl⟩ := step_cases hu
    · exact hfin
    · have hne : b ≠ s.current := fun he => hcur ⟨he.symm, rfl⟩
      obtain ⟨hle, hnot⟩ := hfin
      rw [unfinished_open, List.mem_cons, List.mem_cons, not_or, not_or] at hnot
      refine ⟨?_, fun hm => ?_⟩
      · simp only [bodyBlock, afterBlock] at hnot hle
        omega
      · rcases List.mem_cons.1 hm with he | hm
        · exact hne he
        · exact hnot.2.2 hm
    · have hne : b ≠ s.current := fun he => hcur ⟨he.symm, rfl⟩
      refine ⟨hfin.1, fun hm => ?_⟩
      rw [unfinished_close hs] at hm
      rcases List.mem_cons.1 hm with he | hm
      · exact hne he
      · exact hfin.2 hm

end Nesting

end TapeFlow
