import TapeFlow.Graph.Module

/-!
# Reachable blocks

A block is reachable if a path of branches leads to it from the block a
function starts at.  `Function.Reachable` says so; `Function.reached` computes
it with a worklist, marking each position the first time it comes up.  Every
round either takes a number off the list for good or marks a position, so the
search ends.
-/

namespace TapeFlow

namespace Function

/-- A path of branches leads from the start of the function to a number.  The
number need not name a block. -/
inductive Reachable (f : Function) : BlockId → Prop where
  /-- The start is reachable. -/
  | entry : Reachable f f.entry
  /-- So is every number that a reachable block branches to. -/
  | branch {id target : BlockId} {b : Block} (source : Reachable f id)
    (found : f.block? id = some b) (edge : target ∈ b.successors) : Reachable f target

/-- Mark what can be reached from the numbers in `work`.  A number that names no
block leads nowhere. -/
def mark (f : Function) (work : List BlockId) (marks : Array Bool) : Array Bool :=
  match work with
  | [] => marks
  | id :: rest =>
    if h : id.toNat < marks.size then
      if marks[id.toNat] then
        mark f rest marks
      else
        let next := match f.block? id with
          | some b => b.successors
          | none => []
        mark f (next ++ rest) (marks.set id.toNat true)
    else
      mark f rest marks
termination_by (marks.count false, work.length)
decreasing_by
  · exact Prod.Lex.right _ (by simp)
  · have hm : marks[id.toNat] = false := by simpa using ‹¬marks[id.toNat] = true›
    have hc : 0 < marks.count false :=
      Array.count_pos_iff.mpr (hm ▸ Array.getElem_mem h)
    refine Prod.Lex.left _ _ ?_
    have hs : (marks.set id.toNat true).count false = marks.count false - 1 := by
      simp [Array.count_set, hm]
    omega
  · exact Prod.Lex.right _ (by simp)

/-- For each position, whether the block there can be reached. -/
def reached (f : Function) : Array Bool :=
  f.mark [f.entry] (Array.replicate f.blocks.size false)

/-- The labels of the blocks that cannot be reached.  A block is looked up by
the number it carries. -/
def unreachable (f : Function) : List String :=
  let marks := f.reached
  f.blocks.toList.filterMap fun b =>
    match marks[b.id.toNat]? with
    | some false => (f.block? b.id).map Block.label
    | _ => none

end Function

end TapeFlow
