import TapeFlow.Proofs.Comments

/-!
# Commands can be read back

A module tells which commands it was made from.  Code is read back block after
block, in the order of the program: the code of a command shows which command it
is, but for the two brackets, which are told apart by where their branches lead.

* `leadingCommand?` — the command that code starts with.
* `Nesting.bracket_eq` — the two brackets never branch to the same loop.
* `Draft.commands_eq_of_finished` — drafts that end with the same blocks have read
  the same commands.
* `compile_result_eq_iff` — a module is as informative as the commands of its
  source, neither more nor less.
-/

namespace TapeFlow

open Nesting (bodyBlock afterBlock)

/-! ## The code of a command -/

/-- The command with closing brackets taken for opening ones: what can be told
from the code of a command alone. -/
def Command.kind (c : Command) : Command := if c.isBracket then .loopOpen else c

/-- The kind of command that code starts with. -/
def leadingCommand? : List Instruction → Option Command
  | .call .. :: _ => some .input
  | .load .. :: .const .. :: .add .. :: _ => some .right
  | .load .. :: .const .. :: .sub .. :: _ => some .left
  | .load .. :: .gep .. :: .load .. :: .call .. :: _ => some .output
  | .load .. :: .gep .. :: .load .. :: .const .. :: .add .. :: _ => some .increment
  | .load .. :: .gep .. :: .load .. :: .const .. :: .sub .. :: _ => some .decrement
  | .load .. :: .gep .. :: .load .. :: .const .. :: .icmpNe .. :: _ => some .loopOpen
  | _ => none

section

variable (symbols : Symbols) (layout : TapeLayout) (r : Nat)

theorem leadingCommand?_code (c : Command) (rest : List Instruction) :
    leadingCommand? (c.code layout symbols r ++ rest) = some c.kind := by
  cases c <;> rfl

/-- The code up to the end of a block shows the kind of the next command, if there
is one. -/
theorem leadingCommand?_segment (cs : List Command) :
    leadingCommand? (Draft.segment symbols layout r cs) = cs.head?.map Command.kind := by
  cases cs with
  | nil => rfl
  | cons c cs =>
    rw [Draft.segment, leadingCommand?_code]
    rfl

variable {symbols layout r} in
theorem kind_head?_eq {cs cs' : List Command}
    (h : Draft.segment symbols layout r cs = Draft.segment symbols layout r cs') :
    cs.head?.map Command.kind = cs'.head?.map Command.kind := by
  rw [← leadingCommand?_segment symbols layout r, h, leadingCommand?_segment]

end

theorem Command.eq_of_kind {c c' : Command} (h : c.kind = c'.kind) (hc : c.isBracket = false) :
    c = c' := by
  unfold Command.kind at h
  rw [hc] at h
  by_cases hc' : c'.isBracket = true
  · rw [if_pos hc'] at h
    subst h
    cases hc
  · rw [if_neg hc'] at h
    exact h

theorem Command.isBracket_of_kind {c c' : Command} (h : c.kind = c'.kind)
    (hc : c.isBracket = true) : c'.isBracket = true := by
  by_cases hc' : c'.isBracket = true
  · exact hc'
  · rw [eq_of_kind h.symm (by simpa using hc')]
    exact hc

/-! ## Brackets -/

namespace Nesting

variable {s t t' : Nesting} {c c' : Command}

/-- A bracket belongs to a loop that has been opened. -/
theorem loopOf_lt (hs : s.Valid) (hc : c.isBracket = true) (h : s.step c = some t) :
    s.loopOf c < t.opened := by
  obtain ⟨hc', -⟩ | ⟨rfl, rfl⟩ | ⟨rfl, loop, rest, hstack, rfl⟩ := step_cases h
  · rw [hc] at hc'
    cases hc'
  · exact Nat.lt_succ_self _
  · have hmem : loop ∈ s.stack := by
      rw [hstack]
      exact List.mem_cons_self
    unfold loopOf
    rw [hstack]
    exact hs.lt_opened hmem

/-- An opening bracket opens a loop that no closing bracket could close yet. -/
theorem bracket_eq (hs : s.Valid) (hc : c.isBracket = true) (hc' : c'.isBracket = true)
    (h : s.step c = some t) (h' : s.step c' = some t') (hloop : s.loopOf c = s.loopOf c') :
    c = c' := by
  have hlt := loopOf_lt hs hc h
  have hlt' := loopOf_lt hs hc' h'
  obtain ⟨hn, -⟩ | ⟨rfl, rfl⟩ | ⟨rfl, loop, rest, -, rfl⟩ := step_cases h
  · rw [hc] at hn
    cases hn
  · obtain ⟨hn, -⟩ | ⟨rfl, -⟩ | ⟨rfl, loop, rest, -, rfl⟩ := step_cases h'
    · rw [hc'] at hn
      cases hn
    · rfl
    · rw [← hloop] at hlt'
      exact absurd hlt' (Nat.lt_irrefl _)
  · obtain ⟨hn, -⟩ | ⟨rfl, -⟩ | ⟨rfl, -⟩ := step_cases h'
    · rw [hc'] at hn
      cases hn
    · rw [hloop] at hlt
      exact absurd hlt (Nat.lt_irrefl _)
    · rfl

end Nesting

/-- Branches with the same targets are branches of the same loop. -/
theorem loopBranch_inj {cond : Reg} {k k' : Nat} (hk : 2 * k + 1 < 2 ^ 32)
    (hk' : 2 * k' + 1 < 2 ^ 32) (h : loopBranch cond k = loopBranch cond k') : k = k' := by
  unfold loopBranch at h
  injection h with _ hbody _
  rw [bodyBlock, bodyBlock, BlockId.ofNat_inj (by omega) (by omega)] at hbody
  omega

/-! ## Drafts -/

namespace Draft

variable {symbols : Symbols} {layout : TapeLayout} {d e e' : Draft} {cs cs' : List Command}

/-- If two drafts that go on from the same one end with the same blocks, what they
added to the current block is the same. -/
theorem segment_eq (hd : d.Fits) (h : d.run symbols layout cs = some e)
    (h' : d.run symbols layout cs' = some e') (heq : e.finished.blocks = e'.finished.blocks) :
    segment symbols layout d.regs cs = segment symbols layout d.regs cs' ∧
      ending d.nesting d.regs cs = ending d.nesting d.regs cs' := by
  have hblock := Array.getElem?_eq_getElem hd.current_lt
  have hfinal := getElem?_finished_current hd h hblock
  rw [heq, getElem?_finished_current hd h' hblock] at hfinal
  have hsame := Option.some.inj hfinal
  constructor
  · have hcode := congrArg (fun block => block.instructions.toList) hsame
    simp only [Block.finish, Block.extend, Array.toList_append] at hcode
    exact (List.append_cancel_left hcode).symm
  · exact (Option.some.inj (congrArg Block.terminator hsame)).symm

/-- If, besides, both go on with a command, it is the same. -/
theorem head_eq {c c' : Command} (hd : d.Fits) {d₁ d₂ : Draft}
    (h : d.step symbols layout c = some d₁) (h' : d.step symbols layout c' = some d₂)
    (hsmall : 2 * d₁.nesting.opened < 2 ^ 32) (hsmall' : 2 * d₂.nesting.opened < 2 ^ 32)
    (hsegment : segment symbols layout d.regs (c :: cs) =
      segment symbols layout d.regs (c' :: cs'))
    (hending : ending d.nesting d.regs (c :: cs) = ending d.nesting d.regs (c' :: cs')) :
    c = c' := by
  have hkind : c.kind = c'.kind := Option.some.inj (kind_head?_eq hsegment)
  by_cases hc : c.isBracket = true
  · have hc' := Command.isBracket_of_kind hkind hc
    have hs := (step_eq_some h).1
    have hs' := (step_eq_some h').1
    have hlt := Nesting.loopOf_lt hd.valid hc hs
    have hlt' := Nesting.loopOf_lt hd.valid hc' hs'
    rw [ending, if_pos hc, ending, if_pos hc'] at hending
    exact Nesting.bracket_eq hd.valid hc hc' hs hs' (loopBranch_inj (by omega) (by omega) hending)
  · exact Command.eq_of_kind hkind (by simpa using hc)

/-- Drafts that go on from the same one and end with the same blocks have read the
same commands. -/
theorem commands_eq_of_finished (hd : d.Fits) (h : d.run symbols layout cs = some e)
    (h' : d.run symbols layout cs' = some e') (hsmall : 2 * e.nesting.opened < 2 ^ 32)
    (hsmall' : 2 * e'.nesting.opened < 2 ^ 32) (heq : e.finished.blocks = e'.finished.blocks) :
    cs = cs' := by
  induction cs generalizing d cs' with
  | nil =>
    have hhead := kind_head?_eq (segment_eq hd h h' heq).1
    exact (List.head?_eq_none_iff.1 (Option.map_eq_none_iff.1 hhead.symm)).symm
  | cons c cs ih =>
    obtain ⟨hsegment, hending⟩ := segment_eq hd h h' heq
    cases cs' with
    | nil => cases kind_head?_eq hsegment
    | cons c' cs' =>
      rw [run_cons] at h h'
      obtain ⟨d₁, hd₁, hr₁⟩ := Option.bind_eq_some_iff.1 h
      obtain ⟨d₂, hd₂, hr₂⟩ := Option.bind_eq_some_iff.1 h'
      -- loops are only ever added, so the numbers stay small on the way
      have hopened := Nesting.opened_run (nesting_run hr₁)
      have hopened' := Nesting.opened_run (nesting_run hr₂)
      have hhead := head_eq hd hd₁ hd₂ (by omega) (by omega) hsegment hending
      subst hhead
      cases hd₁.symm.trans hd₂
      rw [ih (hd.step hd₁) hr₁ hr₂]

end Draft

/-! ## Modules -/

section

variable {options : Options} {s t : Source}

/-- Sources that are lowered to the same module have the same commands. -/
theorem commands_eq_of_lower (hs : s.commands.length < 2 ^ 29) (ht : t.commands.length < 2 ^ 29)
    {result : Module} {tally tally' : Tally}
    (hlower : (lower options (.ofSource s)).1 = .ok (result, tally))
    (hlower' : (lower options (.ofSource t)).1 = .ok (result, tally')) :
    s.commands = t.commands := by
  obtain ⟨e, he, rfl⟩ := exists_completes_of_lower hs hlower
  obtain ⟨e', he', hresult⟩ := exists_completes_of_lower ht hlower'
  have hblocks : e.finished.blocks = e'.finished.blocks := by
    have hfunctions := congrArg Module.functions hresult
    exact congrArg Function.blocks (List.cons.inj hfunctions).1
  refine Draft.commands_eq_of_finished (Draft.fits_start options) he.run he'.run ?_ ?_ hblocks
  · rw [he.opened]
    exact he.count_lt
  · rw [he'.opened]
    exact he'.count_lt

/-- A module is exactly as informative as the commands of its source: sources with the
same commands compile to the same module with the same counts, or neither compiles,
and sources that compile to the same module have the same commands. -/
theorem compile_result_eq_iff (options : Options) (s t : Source) :
    (s.commands = t.commands →
      ((∃ a, (compile options s).1 = .ok a) ↔ ∃ b, (compile options t).1 = .ok b)) ∧
    ∀ a b, (compile options s).1 = .ok a → (compile options t).1 = .ok b →
      (s.commands = t.commands → a.tally = b.tally) ∧
      (s.commands.length < 2 ^ 29 → t.commands.length < 2 ^ 29 →
        (a.result = b.result ↔ s.commands = t.commands)) := by
  refine ⟨fun h => ⟨?_, ?_⟩, fun a b ha hb => ?_⟩
  · rintro ⟨a, ha⟩
    exact ⟨a, compile_of_commands h ha⟩
  · rintro ⟨b, hb⟩
    exact ⟨b, compile_of_commands h.symm hb⟩
  · have hsame : s.commands = t.commands → a = b := fun h =>
      Except.ok.inj ((compile_of_commands h ha).symm.trans hb)
    refine ⟨fun h => by rw [hsame h], fun hs ht => ⟨fun h => ?_, fun h => by rw [hsame h]⟩⟩
    have hlower := (lower_of_compile ha).1
    rw [h] at hlower
    exact commands_eq_of_lower hs ht hlower (lower_of_compile hb).1

/-- With a comment in it, `+ [-]` is compiled to what `+[-]` is compiled to, and `+` alone is
compiled to something else. -/
theorem compile_result_eq_iff_comment :
    (Source.commands [43, 32, 91, 45, 93]).length < 2 ^ 29 ∧
      (Source.commands [43, 91, 45, 93]).length < 2 ^ 29 ∧
      (Source.commands [43]).length < 2 ^ 29 ∧
      ∃ a b c, (compile {} [43, 32, 91, 45, 93]).1 = .ok a ∧ (compile {} [43, 91, 45, 93]).1 = .ok b ∧
        (compile {} [43]).1 = .ok c ∧ a.result = b.result ∧ a.tally = b.tally ∧
        a.result ≠ c.result := by
  have hspaced : (Source.commands [43, 32, 91, 45, 93]).length < 2 ^ 29 := by decide
  have hloop : (Source.commands [43, 91, 45, 93]).length < 2 ^ 29 := by decide
  have hplus : (Source.commands [43]).length < 2 ^ 29 := by decide
  have hsame : Source.commands [43, 32, 91, 45, 93] = Source.commands [43, 91, 45, 93] := by decide
  have hother : Source.commands [43, 32, 91, 45, 93] ≠ Source.commands [43] := by decide
  have hok : ∀ {source : Source}, source.commands.length < 2 ^ 29 → Balanced source.commands →
      ∃ a, (compile {} source).1 = .ok a := by
    intro source hsmall hbal
    have hcells : ({} : Options).cellCount.toNat < 2 ^ 63 := by decide
    obtain ⟨result, tally, hcompile, hvalid⟩ := compile_of_balanced hcells hsmall hbal
    exact ⟨_, hcompile.trans (verify_of_valid rfl (hvalid (by decide)) tally)⟩
  obtain ⟨b, hb⟩ := hok hloop (by decide)
  obtain ⟨c, hc⟩ := hok hplus (by decide)
  obtain ⟨a, ha⟩ := ((compile_result_eq_iff {} _ _).1 hsame).2 ⟨b, hb⟩
  obtain ⟨htally, hresult⟩ := (compile_result_eq_iff {} _ _).2 a b ha hb
  have hdiffer := ((compile_result_eq_iff {} _ _).2 a c ha hc).2 hspaced hplus
  exact ⟨hspaced, hloop, hplus, a, b, c, ha, hb, hc, (hresult hspaced hloop).2 hsame,
    htally hsame, fun h => hother (hdiffer.1 h)⟩

end

end TapeFlow
