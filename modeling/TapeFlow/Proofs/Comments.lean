import TapeFlow.Proofs.Lowering
import TapeFlow.Proofs.Outcome

/-!
# Comments do not matter

Two sources with the same commands, however they are laid out, are lowered to
the same module with the same counts, or both fail.  The offsets of the commands
go to the frames of open loops and to events, and from there only into errors.

* `Pass.Alike` — two passes that differ in offsets and events only.
* `Lower.Agree` — two computations that take alike passes to alike passes, or
  fail both; `Lower.Agree.bind` puts them together.
* `Lower.agree_tokens` — so do the passes over two lists of tokens with the same
  commands.
* `lower_of_commands`, `compile_of_commands` — hence the same holds of lowering
  and compiling.

Nothing here depends on how large the sources are.
-/

namespace TapeFlow

/-- The blocks of an open loop. -/
def LoopFrame.blocks (frame : LoopFrame) : BlockId × BlockId := (frame.body, frame.after)

/-- Two passes that differ in nothing but offsets and what they have reported. -/
structure Pass.Alike (p q : Pass) : Prop where
  /-- They have the same function under construction. -/
  builder : p.builder = q.builder
  /-- They have read as many commands. -/
  tokens : p.tokens = q.tokens
  /-- Their open loops have the same blocks. -/
  frames : p.loops.frames.map LoopFrame.blocks = q.loops.frames.map LoopFrame.blocks
  /-- The loops went as deep. -/
  maxDepth : p.loops.maxDepth = q.loops.maxDepth
  /-- There were as many loops. -/
  opened : p.loops.opened = q.loops.opened

namespace Pass.Alike

variable {p q : Pass}

theorem refl (p : Pass) : p.Alike p := ⟨rfl, rfl, rfl, rfl, rfl⟩

theorem size_frames (h : p.Alike q) : p.loops.frames.size = q.loops.frames.size := by
  have hsize := congrArg Array.size h.frames
  rwa [Array.size_map, Array.size_map] at hsize

theorem innermost? (h : p.Alike q) :
    p.loops.innermost?.map LoopFrame.blocks = q.loops.innermost?.map LoopFrame.blocks := by
  rw [LoopStack.innermost?, LoopStack.innermost?, ← Array.back?_map, ← Array.back?_map, h.frames]

theorem push (h : p.Alike q) {frame frame' : LoopFrame} (hframe : frame.blocks = frame'.blocks) :
    ({ p with loops := p.loops.push frame } : Pass).Alike
      { q with loops := q.loops.push frame' } where
  builder := h.builder
  tokens := h.tokens
  frames := by simp only [LoopStack.push, Array.map_push, h.frames, hframe]
  maxDepth := by simp only [LoopStack.push, h.maxDepth, h.size_frames]
  opened := by simp only [LoopStack.push, h.opened]

theorem pop (h : p.Alike q) :
    ({ p with loops := p.loops.dropInnermost } : Pass).Alike
      { q with loops := q.loops.dropInnermost } where
  builder := h.builder
  tokens := h.tokens
  frames := by simp only [LoopStack.dropInnermost, Array.map_pop, h.frames]
  maxDepth := h.maxDepth
  opened := h.opened

theorem tally_eq (h : p.Alike q) : p.tally = q.tally := by
  unfold Pass.tally
  rw [h.tokens, h.opened, h.maxDepth, h.builder]

end Pass.Alike

namespace Lower

/-- Two outcomes that agree: both are failures, or the values belong together and
the passes are alike. -/
inductive Agreeing (R : α → β → Prop) :
    EStateM.Result Error Pass α → EStateM.Result Error Pass β → Prop where
  /-- Both are values. -/
  | ok {a : α} {b : β} {p q : Pass} (value : R a b) (state : p.Alike q) :
    Agreeing R (.ok a p) (.ok b q)
  /-- Both are failures, whatever the errors say. -/
  | error {e e' : Error} {p q : Pass} : Agreeing R (.error e p) (.error e' q)

/-- Two computations that agree wherever they start from alike passes. -/
def Agree (R : α → β → Prop) (x : Lower α) (y : Lower β) : Prop :=
  ∀ p q : Pass, p.Alike q → Agreeing R (x p) (y q)

variable {α β γ δ : Type}

/-- Computations that agree step by step agree. -/
theorem Agree.bind {R : α → β → Prop} {S : γ → δ → Prop} {x : Lower α} {y : Lower β}
    {f : α → Lower γ} {g : β → Lower δ} (hxy : Agree R x y)
    (hfg : ∀ a b, R a b → Agree S (f a) (g b)) : Agree S (x >>= f) (y >>= g) := by
  intro p q hpq
  have hstep := hxy p q hpq
  generalize hx : x p = r at hstep
  generalize hy : y q = r' at hstep
  cases hstep with
  | ok hvalue hstate =>
    rw [bind_of_ok hx, bind_of_ok hy]
    exact hfg _ _ hvalue _ _ hstate
  | error =>
    rw [bind_of_error hx, bind_of_error hy]
    exact .error

theorem agree_pure (a : α) : Agree Eq (pure a : Lower α) (pure a) := by
  intro p q hpq
  exact .ok rfl hpq

/-- Building does not look at offsets. -/
theorem agree_build (x : Build α) : Agree Eq (build x) (build x) := by
  intro p q hpq
  have hb := hpq.builder
  cases hx : x p.builder with
  | ok a b =>
    rw [build_of_ok hx, build_of_ok (hb ▸ hx)]
    exact .ok rfl ⟨rfl, hpq.tokens, hpq.frames, hpq.maxDepth, hpq.opened⟩
  | error e b =>
    rw [build_of_error hx, build_of_error (hb ▸ hx)]
    exact .error

theorem agree_report (event event' : Nat → Event) : Agree Eq (report event) (report event') := by
  intro p q hpq
  exact .ok rfl ⟨hpq.builder, hpq.tokens, hpq.frames, hpq.maxDepth, hpq.opened⟩

theorem agree_pushLoop {frame frame' : LoopFrame} (h : frame.blocks = frame'.blocks) :
    Agree Eq (pushLoop frame) (pushLoop frame') := by
  intro p q hpq
  exact .ok rfl (hpq.push h)

theorem agree_countToken : Agree Eq countToken countToken := by
  intro p q hpq
  exact .ok rfl ⟨hpq.builder, congrArg (· + 1) hpq.tokens, hpq.frames, hpq.maxDepth, hpq.opened⟩

/-- The loops that are closed have the same blocks, or there is none in either pass. -/
theorem agree_popLoop (offset offset' : Nat) :
    Agree (fun frame frame' => frame.blocks = frame'.blocks) (popLoop offset)
      (popLoop offset') := by
  intro p q hpq
  have hin := hpq.innermost?
  simp only [popLoop, LoopStack.pop]
  cases hp : p.loops.innermost? with
  | none =>
    rw [hp, Option.map_none, eq_comm, Option.map_eq_none_iff] at hin
    rw [hin]
    exact .error
  | some frame =>
    rw [hp, Option.map_some, eq_comm, Option.map_eq_some_iff] at hin
    obtain ⟨frame', hq, hframe⟩ := hin
    rw [hq]
    exact .ok hframe.symm hpq.pop

theorem agree_finishLoops (length length' : Nat) :
    Agree Eq (finishLoops length) (finishLoops length') := by
  intro p q hpq
  have hin := hpq.innermost?
  simp only [finishLoops, LoopStack.finish]
  cases hp : p.loops.innermost? with
  | none =>
    rw [hp, Option.map_none, eq_comm, Option.map_eq_none_iff] at hin
    rw [hin]
    exact .ok rfl hpq
  | some frame =>
    rw [hp, Option.map_some, eq_comm, Option.map_eq_some_iff] at hin
    obtain ⟨frame', hq, -⟩ := hin
    rw [hq]
    exact .error

section

variable (symbols : Symbols) (layout : TapeLayout)

/-- Of a token only the command is seen. -/
theorem agree_token {t t' : Token} (h : t.command = t'.command) :
    Agree Eq (token symbols layout t) (token symbols layout t') := by
  unfold token
  rw [← h]
  cases t.command with
  | loopOpen =>
    refine (agree_build _).bind ?_
    rintro ⟨body, after⟩ _ rfl
    refine Agree.bind (agree_pushLoop rfl) fun _ _ _ => ?_
    exact agree_report _ _
  | loopClose =>
    refine (agree_popLoop _ _).bind fun frame frame' hframe => ?_
    -- a frame is used for its blocks, and for its offset only in the report
    have hclose : layout.closeLoop frame = layout.closeLoop frame' := by
      obtain ⟨hbody, hafter⟩ := Prod.mk.inj hframe
      unfold TapeLayout.closeLoop
      rw [hbody, hafter]
    rw [hclose]
    refine (agree_build _).bind fun _ _ _ => ?_
    exact agree_report _ _
  | right | left | increment | decrement | output | input => exact agree_build _

theorem agree_tokens {ts ts' : List Token} (h : ts.map Token.command = ts'.map Token.command) :
    Agree Eq (tokens symbols layout ts) (tokens symbols layout ts') := by
  induction ts generalizing ts' with
  | nil =>
    rw [List.map_nil, eq_comm, List.map_eq_nil_iff] at h
    subst h
    exact agree_pure ()
  | cons t ts ih =>
    rw [List.map_cons, eq_comm, List.map_eq_cons_iff] at h
    obtain ⟨t', rest, rfl, ht, hrest⟩ := h
    refine (agree_token symbols layout ht.symm).bind fun _ _ _ => ?_
    exact agree_countToken.bind fun _ _ _ => ih hrest.symm

end

theorem agree_program (options : Options) {scanner scanner' : Scanner}
    (h : scanner.commands = scanner'.commands) :
    Agree Eq (program options scanner) (program options scanner') := by
  refine (agree_build _).bind ?_
  rintro layout _ rfl
  refine (agree_tokens _ _ h).bind fun _ _ _ => ?_
  refine (agree_finishLoops _ _).bind fun _ _ _ => ?_
  exact agree_build _

end Lower

section

variable {options : Options}

/-- What a scanner is lowered to, so is one with the same commands. -/
theorem lower_of_commands {scanner scanner' : Scanner} (h : scanner.commands = scanner'.commands)
    {lowered : Module × Tally} (hlower : (lower options scanner).1 = .ok lowered) :
    (lower options scanner').1 = .ok lowered := by
  have hagree := Lower.agree_program options h (.start options) (.start options) (.refl _)
  unfold lower at hlower ⊢
  generalize Lower.program options scanner (.start options) = r at hagree hlower
  generalize Lower.program options scanner' (.start options) = r' at hagree ⊢
  cases hagree with
  | ok _ halike =>
    simp only [halike.builder, halike.tally_eq] at hlower
    exact hlower
  | error => cases hlower

/-- What a source is compiled to, so is one with the same commands. -/
theorem compile_of_commands {s t : Source} (h : s.commands = t.commands) {compiled : Compiled}
    (hcompile : (compile options s).1 = .ok compiled) : (compile options t).1 = .ok compiled := by
  have hlower := (lower_of_compile hcompile).1
  have hcommands : (Scanner.ofSource s).commands = (Scanner.ofSource t).commands := by
    rw [Scanner.commands_ofSource, Scanner.commands_ofSource, h]
  have hlower' := lower_of_commands hcommands hlower
  rw [compile_of_ok hlower', ← compile_of_ok hlower, hcompile]

end

end TapeFlow
