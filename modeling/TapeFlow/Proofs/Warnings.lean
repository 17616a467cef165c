import Mathlib.Data.List.Basic
import TapeFlow.Proofs.Reachability
import TapeFlow.Proofs.WellFormed

/-!
# Warnings about blocks

The checker warns about the blocks that the search has not found.  As the search finds
exactly the blocks that a path of branches leads to, the warnings are exact, whatever
else is wrong with the function.

* `Function.unreachable_eq_filter` — the labels reported are those of the blocks that no
  path leads to, in their order.
* `Module.warnings_exact` — the search ends, and there is one warning for each of these
  blocks.
-/

namespace TapeFlow

namespace Function

/-- The blocks carry the numbers of their positions. -/
def Numbered (f : Function) : Prop :=
  ∀ (i : Nat) (b : Block), f.blocks[i]? = some b → b.id.toNat = i

variable {f : Function}

/-- A block that carries its position is looked up under its own number. -/
theorem Numbered.block?_id (h : f.Numbered) {b : Block} (hb : b ∈ f.blocks) :
    f.block? b.id = some b ∧ b.id.toNat < f.blocks.size := by
  obtain ⟨i, hi, rfl⟩ := Array.mem_iff_getElem.1 hb
  have hid := h i _ (Array.getElem?_eq_getElem hi)
  rw [block?, hid]
  exact ⟨Array.getElem?_eq_getElem hi, hi⟩

/-- What is reported is what no path leads to. -/
theorem unreachable_eq_filter [DecidablePred f.Reachable] (h : f.Numbered) :
    f.unreachable = (f.blocks.toList.filter fun b => ¬ f.Reachable b.id).map Block.label := by
  rw [← List.filterMap_eq_map, List.filterMap_filter]
  apply List.filterMap_congr
  intro b hb
  obtain ⟨hblock, hlt⟩ := h.block?_id (Array.mem_toList_iff.1 hb)
  have hmark : f.reached[b.id.toNat]? = some (decide (f.Reachable b.id)) := by
    have hsize := f.size_reached
    by_cases hreach : f.Reachable b.id
    · simpa [hreach] using (reached_iff hlt).2 hreach
    · have hne : f.reached[b.id.toNat]? ≠ some true := fun hm => hreach ((reached_iff hlt).1 hm)
      rw [Array.getElem?_eq_getElem (by omega)] at hne ⊢
      simpa [hreach] using hne
  by_cases hreach : f.Reachable b.id
  · simp [hmark, hreach]
  · simp [hmark, hreach, hblock]

end Function

/-- The search of a function ends, and the checker warns about exactly the blocks that no path
of branches leads to, one by one and in their order.  Nothing else need be right about the
function: blocks may lack their ends, branch to numbers that name no block, and go in circles. -/
theorem Module.warnings_exact (m : Module) {f : Function} [DecidablePred f.Reachable]
    (hentry : f.entryBlock?.isSome = true) (hnumbered : f.Numbered) :
    (∃ n ≤ 1 + 2 * f.blocks.size,
      (Function.Search.round f)^[n] (.start f) = ⟨[], f.reached⟩) ∧
    (m.checkFunction f).warnings = (f.blocks.toList.filter fun b => ¬ f.Reachable b.id).map
      (fun b => s!"Block {b.label} is unreachable from entry") ∧
    m.check.warnings = m.functions.flatMap fun g => (m.checkFunction g).warnings := by
  refine ⟨Function.Search.ends f, ?_, m.check_warnings⟩
  have hfound : (m.checkFunction f).unreachable = f.unreachable := by
    obtain ⟨b, hb⟩ := Option.isSome_iff_exists.1 hentry
    simp [checkFunction, hb]
  rw [Report.warnings, hfound, Function.unreachable_eq_filter hnumbered, List.map_map]
  rfl

/-- A function with much wrong: a branch to a number that names no block, a block that
branches to itself, and one without an end. -/
def Function.tangled : Function :=
  ⟨"f", .i32, #[⟨⟨0⟩, "entry", #[], some (.br ⟨1⟩)⟩,
    ⟨⟨1⟩, "again", #[], some (.condBr ⟨0⟩ ⟨0⟩ ⟨9⟩)⟩,
    ⟨⟨2⟩, "alone", #[], some (.br ⟨2⟩)⟩, ⟨⟨3⟩, "loose", #[], none⟩], ⟨0⟩⟩

theorem Module.warnings_exact_tangled :
    Function.tangled.entryBlock?.isSome = true ∧ Function.tangled.Numbered ∧
      (∃ n ≤ 9, (Function.Search.round .tangled)^[n] (.start .tangled) =
        ⟨[], Function.tangled.reached⟩) ∧
      (Module.check ⟨"m", [], [.tangled]⟩).warnings =
        ["Block alone is unreachable from entry", "Block loose is unreachable from entry"] := by
  have hentry : Function.tangled.entryBlock?.isSome = true := by decide
  have hnumbered : Function.tangled.Numbered := by
    have hids : ∀ (i : Nat) (_ : i < Function.tangled.blocks.size),
        Function.tangled.blocks[i].id.toNat = i := by decide
    intro i b hb
    obtain ⟨hi, rfl⟩ := Array.getElem?_eq_some_iff.1 hb
    exact hids i hi
  -- a path stays among these numbers
  have honly : ∀ id, Function.tangled.Reachable id → id.toNat ∈ [0, 1, 9] := by
    have hstay : ∀ n ∈ [0, 1, 9], ∀ b ∈ Function.tangled.blocks[n]?, ∀ target ∈ b.successors,
        target.toNat ∈ [0, 1, 9] := by decide
    intro id h
    induction h with
    | entry => decide
    | branch source found edge ih => exact hstay _ ih _ found _ edge
  have hstart : Function.tangled.Reachable ⟨0⟩ := .entry
  have hagain : Function.tangled.Reachable ⟨1⟩ := .branch .entry rfl (by decide)
  have halone : ¬ Function.tangled.Reachable ⟨2⟩ := fun h => absurd (honly _ h) (by decide)
  have hloose : ¬ Function.tangled.Reachable ⟨3⟩ := fun h => absurd (honly _ h) (by decide)
  have := Classical.decPred Function.tangled.Reachable
  obtain ⟨hends, hfunction, hmodule⟩ :=
    Module.warnings_exact ⟨"m", [], [.tangled]⟩ hentry hnumbered
  refine ⟨hentry, hnumbered, hends, ?_⟩
  have hblocks : Function.tangled.blocks.toList = [⟨⟨0⟩, "entry", #[], some (.br ⟨1⟩)⟩,
    ⟨⟨1⟩, "again", #[], some (.condBr ⟨0⟩ ⟨0⟩ ⟨9⟩)⟩, ⟨⟨2⟩, "alone", #[], some (.br ⟨2⟩)⟩,
    ⟨⟨3⟩, "loose", #[], none⟩] := rfl
  have hleft : (Function.tangled.blocks.toList.filter fun b => ¬ Function.tangled.Reachable b.id) =
      [⟨⟨2⟩, "alone", #[], some (.br ⟨2⟩)⟩, ⟨⟨3⟩, "loose", #[], none⟩] := by
    simp [hblocks, hstart, hagain, halone, hloose]
  rw [hmodule, List.flatMap_singleton, hfunction, hleft]
  rfl

end TapeFlow
