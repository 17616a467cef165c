import TapeFlow.Proofs.Outcome

/-!
# What the calls of a module come to

A call names a symbol.  The checker looks the symbol up in the declarations, where
the last one counts; the machine asks which capability has the name, and the first
one counts.  So where two capabilities have one name, a module can be accepted
whose calls come to another capability than they were meant for.

* `Source.needs` — the capabilities that a source needs, call by call.
* `Adds` — a computation that adds these calls to a function; `Adds.bind` puts two
  together.  Nothing here depends on how large the source is.
* `lower_requests` — the calls of a lowered module are those that the source needs.
* `compile_calls_resolve_iff` — a call of an accepted module comes to the capability
  it was meant for exactly if no other capability has the name.
* `compile_output_reads` — an accepted module that reads where it should write.
-/

namespace TapeFlow

/-! ## Calls and needs -/

/-- The symbol that an instruction calls, and with how many arguments. -/
def Instruction.request? : Instruction → Option (String × Nat)
  | .call _ symbol args => some (symbol, args.length)
  | _ => none

/-- The calls of a function, block after block. -/
def Function.requests (f : Function) : List (String × Nat) :=
  f.instructions.filterMap Instruction.request?

/-- The calls of a module. -/
def Module.requests (m : Module) : List (String × Nat) := m.functions.flatMap Function.requests

/-- The capability that a command needs. -/
def Command.capability? : Command → Option Capability
  | .input => some .readByte
  | .output => some .writeByte
  | _ => none

/-- The capabilities that a source needs, each as often as it is called: the tape is
filled once, and every command that reads or writes needs a call. -/
def Source.needs (source : Source) : List Capability :=
  .fill :: source.commands.filterMap Command.capability?

/-- How a capability is called. -/
def Symbols.request (s : Symbols) (c : Capability) : String × Nat :=
  (s.nameOf c, c.signature.params.length)

theorem Function.mem_requests {f : Function} {symbol : String} {n : Nat} :
    (symbol, n) ∈ f.requests ↔
      ∃ dst args, .call dst symbol args ∈ f.instructions ∧ args.length = n := by
  rw [requests, List.mem_filterMap]
  constructor
  · rintro ⟨i, hi, hrequest⟩
    cases i with
    | call dst symbol' args =>
      cases hrequest
      exact ⟨dst, args, hi, rfl⟩
    | _ => cases hrequest
  · rintro ⟨dst, args, hi, rfl⟩
    exact ⟨_, hi, rfl⟩

/-- The code of a command makes the call that the command needs, and no other. -/
theorem Command.requests_code (symbols : Symbols) (layout : TapeLayout) (c : Command) (r : Nat) :
    (c.code layout symbols r).filterMap Instruction.request? =
      c.capability?.toList.map symbols.request := by
  cases c <;> rfl

/-! ## Computations that add calls -/

section Adds

variable {σ α β : Type} {view : σ → Builder} {calls calls' : List (String × Nat)}

/-- If the computation succeeds, it has added these calls to the function under
construction, wherever it has put them. -/
def Adds (view : σ → Builder) (x : EStateM Error σ α) (calls : List (String × Nat)) : Prop :=
  ∀ s a s', x s = .ok a s' →
    (view s').finish.requests.Perm ((view s).finish.requests ++ calls)

theorem Adds.bind {x : EStateM Error σ α} {f : α → EStateM Error σ β} (hx : Adds view x calls)
    (hf : ∀ a, Adds view (f a) calls') : Adds view (x >>= f) (calls ++ calls') := by
  intro s b s'' h
  rcases bind_cases x f s with ⟨a, s', hs', hrest⟩ | ⟨e, s', -, hrest⟩
  · rw [hrest] at h
    rw [← List.append_assoc]
    exact (hf a s' b s'' h).trans ((hx s a s' hs').append_right _)
  · rw [hrest] at h
    cases h

theorem Adds.nil_bind {x : EStateM Error σ α} {f : α → EStateM Error σ β} (hx : Adds view x [])
    (hf : ∀ a, Adds view (f a) calls) : Adds view (x >>= f) calls :=
  hx.bind hf

/-- What leaves the blocks alone adds no calls. -/
theorem adds_of_blocks {x : EStateM Error σ α}
    (h : ∀ s a s', x s = .ok a s' → (view s').blocks = (view s).blocks) : Adds view x [] := by
  intro s a s' hs
  rw [List.append_nil, Function.requests, Function.requests, Builder.finish, Builder.finish]
  unfold Function.instructions
  rw [h s a s' hs]

end Adds

namespace Build

/-- The computation fails where no code can be added. -/
def NeedsPlace (x : Build α) : Prop :=
  ∀ b e, b.insertionPoint = .error e → ∃ e' b', x b = .error e' b'

theorem NeedsPlace.bind {x : Build α} (h : NeedsPlace x) (f : α → Build β) :
    NeedsPlace (x >>= f) := by
  intro b e hb
  obtain ⟨e', b', hx⟩ := h b e hb
  exact ⟨e', b', bind_of_error hx⟩

theorem needsPlace_define (i : Reg → Instruction) : NeedsPlace (define i) := by
  intro b e hb
  have hchange : emit (i ⟨b.nextReg⟩) { b with nextReg := b.nextReg + 1 } =
      .error e { b with nextReg := b.nextReg + 1 } := by
    have hb' : ({ b with nextReg := b.nextReg + 1 } : Builder).insertionPoint = .error e := hb
    rw [emit, change, hb']
  exact ⟨e, _, (bind_of_ok rfl).trans (bind_of_error hchange)⟩

/-- A computation that only emits code adds the calls of its code. -/
theorem adds_of_emits {x : Build α} {code : Nat → List Instruction} {regs : Nat} {a : Nat → α}
    (hplace : NeedsPlace x) (hx : ∀ r, EmitsAt r x (code r) regs (a r))
    {calls : List (String × Nat)}
    (hcalls : ∀ r, (code r).filterMap Instruction.request? = calls) : Adds id x calls := by
  intro b a' b' h
  cases hb : b.insertionPoint with
  | error e =>
    obtain ⟨e', b'', hfail⟩ := hplace b e hb
    rw [hfail] at h
    cases h
  | ok i =>
    obtain ⟨-, block, -, -, hblock, -⟩ := Builder.exists_of_insertionPoint hb
    have hlt := (Array.getElem?_eq_some_iff.1 hblock).1
    rw [hx b.nextReg.toNat b i hb UInt32.ofNat_toNat.symm] at h
    cases h
    have hperm := (Builder.instructions_extend hlt (code b.nextReg.toNat) regs).filterMap
      Instruction.request?
    rw [List.filterMap_append, hcalls] at hperm
    exact hperm

theorem adds_position (id' : BlockId) : Adds id (position id') [] := by
  refine adds_of_blocks fun b a b' h => ?_
  cases h
  rfl

theorem adds_appendBlock (stem : String) : Adds id (appendBlock stem) [] := by
  intro b a b' h
  have hblocks : ∃ label, b'.blocks = b.blocks.push (.empty ⟨b.blocks.size.toUInt32⟩ label) := by
    unfold appendBlock at h
    simp only at h
    split at h
    · cases h
      exact ⟨_, rfl⟩
    · cases h
      exact ⟨_, rfl⟩
  obtain ⟨label, hblocks⟩ := hblocks
  simp [Function.requests, Function.instructions, Builder.finish, hblocks, Block.empty]

theorem adds_terminate (t : Terminator) : Adds id (terminate t) [] := by
  intro b a b' h
  cases hb : b.insertionPoint with
  | error e =>
    have hchange : change (fun block => block.finish t) b = .error e b := by rw [change, hb]
    have hfail : terminate t b = .error e b := bind_of_error hchange
    rw [hfail] at h
    cases h
  | ok i =>
    obtain ⟨-, block, -, -, hblock, -⟩ := Builder.exists_of_insertionPoint hb
    rw [terminate_eq hb] at h
    cases h
    rw [List.append_nil]
    unfold Function.requests
    rw [id, Builder.instructions_leave (Array.getElem?_eq_some_iff.1 hblock).1]
    rfl

end Build

/-! ## The pass -/

namespace TapeLayout

variable (layout : TapeLayout)

theorem needsPlace_cellAddress : Build.NeedsPlace layout.cellAddress :=
  (Build.needsPlace_define _).bind _

theorem needsPlace_loadCell : Build.NeedsPlace layout.loadCell :=
  layout.needsPlace_cellAddress.bind _

theorem needsPlace_cellNonzero : Build.NeedsPlace layout.cellNonzero :=
  layout.needsPlace_loadCell.bind _

/-- The test in front of a branch calls nothing. -/
theorem adds_cellNonzero : Adds id layout.cellNonzero [] :=
  Build.adds_of_emits layout.needsPlace_cellNonzero (emits_cellNonzero layout) fun _ => rfl

theorem adds_openLoop : Adds id layout.openLoop [] := by
  refine layout.adds_cellNonzero.nil_bind fun cond => ?_
  refine (Build.adds_appendBlock _).nil_bind fun body => ?_
  refine (Build.adds_appendBlock _).nil_bind fun after => ?_
  refine (Build.adds_terminate _).nil_bind fun _ => ?_
  refine (Build.adds_position _).nil_bind fun _ => ?_
  exact adds_of_blocks fun b a b' h => by cases h; rfl

theorem adds_closeLoop (frame : LoopFrame) : Adds id (layout.closeLoop frame) [] := by
  refine layout.adds_cellNonzero.nil_bind fun cond => ?_
  refine (Build.adds_terminate _).nil_bind fun _ => ?_
  exact Build.adds_position _

end TapeLayout

namespace Lower

variable (symbols : Symbols) (layout : TapeLayout)

theorem adds_build {x : Build α} {calls : List (String × Nat)} (h : Adds id x calls) :
    Adds Pass.builder (build x) calls := by
  intro p a q hq
  cases hx : x p.builder with
  | ok a' b =>
    rw [build_of_ok hx] at hq
    cases hq
    exact h _ _ _ hx
  | error e b =>
    rw [build_of_error hx] at hq
    cases hq

theorem adds_popLoop (offset : Nat) : Adds Pass.builder (popLoop offset) [] := by
  refine adds_of_blocks fun p a q h => ?_
  unfold popLoop at h
  split at h
  · cases h
    rfl
  · cases h

theorem adds_finishLoops (length : Nat) : Adds Pass.builder (finishLoops length) [] := by
  refine adds_of_blocks fun p a q h => ?_
  unfold finishLoops at h
  split at h
  · cases h
    rfl
  · cases h

/-- Reading a command adds the call that it needs. -/
theorem adds_token (t : Token) : Adds Pass.builder (token symbols layout t)
    (t.command.capability?.toList.map symbols.request) := by
  have hcode := t.command.requests_code symbols layout
  unfold token
  cases htc : t.command <;> rw [htc] at hcode
  case right =>
    exact adds_build (Build.adds_of_emits ((Build.needsPlace_define _).bind _)
      (emits_movePointer layout .add) hcode)
  case left =>
    exact adds_build (Build.adds_of_emits ((Build.needsPlace_define _).bind _)
      (emits_movePointer layout .sub) hcode)
  case increment =>
    exact adds_build (Build.adds_of_emits (layout.needsPlace_loadCell.bind _)
      (emits_changeCell layout .add) hcode)
  case decrement =>
    exact adds_build (Build.adds_of_emits (layout.needsPlace_loadCell.bind _)
      (emits_changeCell layout .sub) hcode)
  case output =>
    exact adds_build (Build.adds_of_emits (layout.needsPlace_loadCell.bind _)
      (emits_writeCell layout symbols) hcode)
  case input =>
    exact adds_build (Build.adds_of_emits ((Build.needsPlace_define _).bind _)
      (emits_readCell layout symbols) hcode)
  case loopOpen =>
    refine (adds_build layout.adds_openLoop).nil_bind fun _ => ?_
    exact adds_of_blocks fun p a q h => by cases h; rfl
  case loopClose =>
    refine (adds_popLoop _).nil_bind fun frame => ?_
    refine (adds_build (layout.adds_closeLoop frame)).nil_bind fun _ => ?_
    exact adds_of_blocks fun p a q h => by cases h; rfl

/-- So does reading a program. -/
theorem adds_tokens (ts : List Token) : Adds Pass.builder (tokens symbols layout ts)
    (((ts.map Token.command).filterMap Command.capability?).map symbols.request) := by
  induction ts with
  | nil => exact adds_of_blocks fun p a q h => by cases h; rfl
  | cons t ts ih =>
    have hcount : Adds Pass.builder countToken [] := adds_of_blocks fun p a q h => by cases h; rfl
    have hrest := (adds_token symbols layout t).bind fun _ => hcount.nil_bind fun _ => ih
    rw [List.map_cons]
    cases hc : t.command.capability? with
    | none =>
      rw [hc] at hrest
      rw [List.filterMap_cons_none hc]
      exact hrest
    | some c =>
      rw [hc] at hrest
      rw [List.filterMap_cons_some hc]
      exact hrest

theorem adds_epilogue : Adds id epilogue [] := by
  refine (Build.adds_of_emits (Build.needsPlace_define _) (fun r => EmitsAt.define r _)
    fun _ => rfl).nil_bind fun _ => ?_
  exact Build.adds_terminate _

end Lower

section

variable {options : Options} {source : Source}

/-- The calls of a lowered module are those that its source needs. -/
theorem lower_requests {result : Module} {tally : Tally}
    (h : (lower options (.ofSource source)).1 = .ok (result, tally)) :
    result.declarations = options.symbols.declarations ∧
      result.requests.Perm (source.needs.map options.symbols.request) := by
  have hcells := cellCount_lt_of_lower h
  have hpro := Lower.build_of_ok (p := .start options) (prologue_eq options hcells)
  have hrest := (Lower.adds_tokens options.symbols (tapeLayout options)
    (Scanner.ofSource source).tokens).bind fun _ =>
      (Lower.adds_finishLoops (Scanner.ofSource source).sourceLength).nil_bind fun _ =>
        Lower.adds_build Lower.adds_epilogue
  unfold lower at h
  cases hprog : Lower.program options (.ofSource source) (.start options) with
  | error e q =>
    rw [hprog] at h
    cases h
  | ok a q =>
    rw [hprog] at h
    cases h
    rw [Lower.program, bind_of_ok hpro] at hprog
    have hperm := hrest _ _ _ hprog
    have hcommands := Scanner.commands_ofSource source
    rw [Scanner.commands] at hcommands
    rw [hcommands, List.append_nil] at hperm
    refine ⟨rfl, ?_⟩
    rw [Module.requests, List.flatMap_singleton]
    exact hperm

variable (options source) in
/-- A source whose brackets match is accepted if, of all capabilities with its name, each
that it needs is declared last. -/
theorem exists_compiled_of_needs (hcells : options.cellCount.toNat < 2 ^ 63)
    (hsmall : source.commands.length < 2 ^ 29) (hbal : Balanced source.commands)
    (hverify : options.verify = true)
    (hlast : ∀ c ∈ source.needs, Symbols.order.reverse.find? (fun d =>
      options.symbols.nameOf c == options.symbols.nameOf d) = some c) :
    ∃ compiled, (compile options source).1 = .ok compiled := by
  obtain ⟨e, tally, he, hlower⟩ := lower_eq_finished hcells hbal hsmall
  obtain ⟨hdeclarations, hperm⟩ := lower_requests hlower
  rw [Module.requests, List.flatMap_singleton] at hperm
  refine ⟨_, (compile_of_ok hlower).trans (verify_of_valid hverify ?_ tally)⟩
  refine (Module.check_valid_iff _).2 fun f hf => ?_
  rw [List.mem_singleton.1 hf]
  refine he.wellFormed_of_calls fun dst symbol args hcall => ?_
  have hmem := hperm.mem_iff.1 (Function.mem_requests.2 ⟨dst, args, hcall, rfl⟩)
  obtain ⟨c, hc, hrequest⟩ := List.mem_map.1 hmem
  obtain ⟨rfl, hlen⟩ := Prod.mk.inj hrequest
  rw [Symbols.arity?_eq hdeclarations, hlast c hc, ← hlen]
  rfl

/-- A call of an accepted module was made for a capability that the source needs, and
comes to that capability exactly if no other has the name. -/
theorem compile_calls_resolve_iff {compiled : Compiled} (hverify : options.verify = true)
    (h : (compile options source).1 = .ok compiled) :
    compiled.result.requests.Perm (source.needs.map options.symbols.request) ∧
    ∀ f ∈ compiled.result.functions, ∀ dst symbol args, .call dst symbol args ∈ f.instructions →
      ∃ c ∈ source.needs, (symbol, args.length) = options.symbols.request c ∧
        (options.symbols.capability? symbol = some c ↔
          ∀ d, options.symbols.nameOf d = symbol → d = c) := by
  obtain ⟨hlower, hvalid⟩ := lower_of_compile h
  obtain ⟨hdeclarations, hperm⟩ := lower_requests hlower
  refine ⟨hperm, fun f hf dst symbol args hcall => ?_⟩
  have hmem : (symbol, args.length) ∈ compiled.result.requests :=
    List.mem_flatMap.2 ⟨f, hf, Function.mem_requests.2 ⟨dst, args, hcall, rfl⟩⟩
  obtain ⟨c, hc, hrequest⟩ := List.mem_map.1 (hperm.mem_iff.1 hmem)
  refine ⟨c, hc, hrequest.symm, ?_⟩
  obtain ⟨rfl, hlen⟩ := Prod.mk.inj hrequest
  -- the checker has found as many arguments as the last declaration of the name asks for
  have harity := ((Module.check_valid_iff _).1 (hvalid hverify) f hf).arity?_of_call hcall
  rw [← hlen] at harity
  exact Symbols.capability?_nameOf_iff hdeclarations harity

/-- Reading and writing have one name. -/
def oneName : Options := { symbols := { readByte := "x", writeByte := "x" } }

theorem exists_compiled_oneName : ∃ compiled, (compile oneName [46]).1 = .ok compiled :=
  exists_compiled_of_needs oneName [46] (by decide) (by decide) (by decide) rfl (by decide)

/-- With one name for reading and writing, the program `.` is accepted; it calls the two
capabilities it needs, and only the name of the one that fills the tape is its own. -/
theorem compile_calls_resolve_iff_oneName :
    ∃ compiled, oneName.verify = true ∧ (compile oneName [46]).1 = .ok compiled ∧
      compiled.result.requests.Perm [("fill", 3), ("x", 1)] ∧
      ∀ f ∈ compiled.result.functions, ∀ dst symbol args, .call dst symbol args ∈ f.instructions →
        ∃ c ∈ Source.needs [46], (symbol, args.length) = oneName.symbols.request c ∧
          (oneName.symbols.capability? symbol = some c ↔ c = .fill) := by
  obtain ⟨compiled, h⟩ := exists_compiled_oneName
  obtain ⟨hperm, hcalls⟩ := compile_calls_resolve_iff rfl h
  refine ⟨compiled, rfl, h, hperm, fun f hf dst symbol args hcall => ?_⟩
  obtain ⟨c, hc, hrequest, hiff⟩ := hcalls f hf dst symbol args hcall
  refine ⟨c, hc, hrequest, hiff.trans ?_⟩
  rw [(Prod.mk.inj hrequest).1]
  have honly : ∀ c ∈ Source.needs [46], (∀ d ∈ Symbols.order,
      oneName.symbols.nameOf d = oneName.symbols.nameOf c → d = c) ↔ c = .fill := by decide
  simpa only [Symbols.mem_order, true_implies] using honly c hc

/-- With one name for reading and writing, the call that `.` makes for writing comes to
reading. -/
theorem compile_output_reads :
    ∃ (compiled : Compiled) (f : Function) (dst : Option Reg) (value : Reg),
      oneName.verify = true ∧ (compile oneName [46]).1 = .ok compiled ∧
      f ∈ compiled.result.functions ∧ .call dst "x" [value] ∈ f.instructions ∧
      Source.needs [46] = [.fill, .writeByte] ∧ oneName.symbols.request .writeByte = ("x", 1) ∧
      oneName.symbols.capability? "x" = some .readByte := by
  obtain ⟨compiled, h⟩ := exists_compiled_oneName
  have hperm := (lower_requests (lower_of_compile h).1).2
  have hmem : ("x", 1) ∈ compiled.result.requests := hperm.mem_iff.2 (by decide)
  obtain ⟨f, hf, hcall⟩ := List.mem_flatMap.1 hmem
  obtain ⟨dst, args, hi, hlen⟩ := Function.mem_requests.1 hcall
  obtain ⟨value, rfl⟩ := List.length_eq_one_iff.1 hlen
  exact ⟨compiled, f, dst, value, rfl, h, hf, hi, rfl, rfl, by decide⟩

end

end TapeFlow
