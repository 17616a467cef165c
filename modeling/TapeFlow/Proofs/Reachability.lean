import Mathlib.Logic.Function.Iterate
import TapeFlow.Check.Reachable

/-!
# The search finds exactly the reachable blocks

Marking is complete: a position that a path of branches leads to is marked.  In
every round of the search, whatever a marked block branches to is marked or still
to be looked at; at the end nothing is left to be looked at, so the marks are
closed under branches.

Marking is also sound: only numbers that a path leads to are ever looked at.  And it
ends soon: a round takes one number off the list, and only the round that marks a
position puts numbers on it, at most two.

* `Function.mark_closed` — the marks at the end hold the marks at the start and
  the numbers to be looked at, and are closed.
* `Function.reached_of_reachable` — every reachable block is found.
* `Function.unreachable_eq_nil` — nothing is reported where all blocks can be
  reached.
* `Function.mark_sound`, `Function.reached_iff` — nothing else is found.
* `Function.Search.exists_rounds` — the number of rounds is bounded by the numbers on
  the list and twice the positions without a mark.
-/

namespace TapeFlow

theorem BlockId.toNat_injective {a b : BlockId} (h : a.toNat = b.toNat) : a = b := by
  cases a
  cases b
  exact congrArg mk (UInt32.toNat_inj.1 h)

theorem Terminator.length_successors_le (t : Terminator) : t.successors.length ≤ 2 := by
  cases t <;> simp [successors]

namespace Function

/-- Marked positions lead only to numbers that are marked, in `work`, or outside. -/
def ClosedUpTo (f : Function) (work : List BlockId) (marks : Array Bool) : Prop :=
  ∀ (id target : BlockId) (b : Block), marks[id.toNat]? = some true → f.block? id = some b →
    target ∈ b.successors → target.toNat < marks.size →
    marks[target.toNat]? = some true ∨ target ∈ work

theorem ClosedUpTo.of_marked {f : Function} {id : BlockId} {work : List BlockId}
    {marks : Array Bool} (h : f.ClosedUpTo (id :: work) marks)
    (hid : id.toNat < marks.size → marks[id.toNat]? = some true) : f.ClosedUpTo work marks := by
  intro source target b hs hb ht hlt
  rcases h source target b hs hb ht hlt with hm | hm
  · exact .inl hm
  · rcases List.mem_cons.1 hm with rfl | hm
    · exact .inl (hid hlt)
    · exact .inr hm

/-- Marking a position and looking at what its block branches to. -/
theorem ClosedUpTo.set {f : Function} {id : BlockId} {work : List BlockId} {marks : Array Bool}
    (h : f.ClosedUpTo (id :: work) marks) (hlt : id.toNat < marks.size) :
    f.ClosedUpTo ((match f.block? id with
      | some b => b.successors
      | none => []) ++ work) (marks.set id.toNat true) := by
  intro source target b hs hb ht htarget
  rw [Array.size_set] at htarget
  rw [Array.getElem?_set] at hs ⊢
  by_cases hsource : id.toNat = source.toNat
  · -- the block that is marked now: its targets are put in front
    have hb' : f.block? id = some b := by
      rw [block?, hsource]
      exact hb
    rw [hb']
    exact .inr (List.mem_append_left _ ht)
  · rw [if_neg hsource] at hs
    rcases h source target b hs hb ht htarget with hm | hm
    · by_cases heq : id.toNat = target.toNat
      · exact .inl (if_pos heq)
      · exact .inl ((if_neg heq).trans hm)
    · rcases List.mem_cons.1 hm with rfl | hm
      · exact .inl (if_pos rfl)
      · exact .inr (List.mem_append_right _ hm)

theorem mark_closed (f : Function) (work : List BlockId) (marks : Array Bool)
    (h : f.ClosedUpTo work marks) :
    (f.mark work marks).size = marks.size ∧
      (∀ i : Nat, marks[i]? = some true → (f.mark work marks)[i]? = some true) ∧
      (∀ id ∈ work, id.toNat < marks.size → (f.mark work marks)[id.toNat]? = some true) ∧
      f.ClosedUpTo [] (f.mark work marks) := by
  fun_induction mark f work marks with
  | case1 marks => exact ⟨rfl, fun i hi => hi, nofun, h⟩
  | case2 marks id rest hlt hmarked ih =>
    have hid : marks[id.toNat]? = some true := by rw [Array.getElem?_eq_getElem hlt, hmarked]
    obtain ⟨hsize, hkeep, hwork, hclosed⟩ := ih (h.of_marked fun _ => hid)
    refine ⟨hsize, hkeep, fun x hx hxlt => ?_, hclosed⟩
    rcases List.mem_cons.1 hx with rfl | hx
    · exact hkeep _ hid
    · exact hwork x hx hxlt
  | case3 marks id rest hlt hmarked next ih =>
    obtain ⟨hsize, hkeep, hwork, hclosed⟩ := ih (h.set hlt)
    rw [Array.size_set] at hsize hwork
    have hset : ∀ i : Nat, marks[i]? = some true → (marks.set id.toNat true)[i]? = some true := by
      intro i hi
      rw [Array.getElem?_set]
      split
      · rfl
      · exact hi
    refine ⟨hsize, fun i hi => hkeep i (hset i hi), fun x hx hxlt => ?_, hclosed⟩
    rcases List.mem_cons.1 hx with rfl | hx
    · exact hkeep _ (by rw [Array.getElem?_set, if_pos rfl])
    · exact hwork x (List.mem_append_right _ hx) hxlt
  | case4 marks id rest hlt ih =>
    obtain ⟨hsize, hkeep, hwork, hclosed⟩ := ih (h.of_marked fun hid => absurd hid hlt)
    refine ⟨hsize, hkeep, fun x hx hxlt => ?_, hclosed⟩
    rcases List.mem_cons.1 hx with rfl | hx
    · exact absurd hxlt hlt
    · exact hwork x hx hxlt

/-- Without marks there is nothing to be closed. -/
theorem closedUpTo_start (f : Function) :
    f.ClosedUpTo [f.entry] (Array.replicate f.blocks.size false) := by
  intro source target b hs
  rw [Array.getElem?_replicate] at hs
  split at hs <;> cases hs

theorem size_reached (f : Function) : f.reached.size = f.blocks.size := by
  rw [reached, (f.mark_closed _ _ f.closedUpTo_start).1, Array.size_replicate]

/-- Every reachable block is found. -/
theorem reached_of_reachable {f : Function} {id : BlockId} (h : f.Reachable id)
    (hlt : id.toNat < f.blocks.size) : f.reached[id.toNat]? = some true := by
  obtain ⟨hsize, -, hwork, hclosed⟩ := f.mark_closed _ _ f.closedUpTo_start
  rw [Array.size_replicate] at hsize hwork
  induction h with
  | entry => exact hwork f.entry List.mem_cons_self hlt
  | branch source found edge ih =>
    have hsource := ih (Array.getElem?_eq_some_iff.1 found).1
    rcases hclosed _ _ _ hsource found edge (by rw [hsize]; exact hlt) with hm | hm
    · exact hm
    · cases hm

/-- Where all blocks can be reached, none is reported. -/
theorem unreachable_eq_nil {f : Function}
    (h : ∀ b ∈ f.blocks, b.id.toNat < f.blocks.size → f.Reachable b.id) : f.unreachable = [] := by
  rw [unreachable, List.filterMap_eq_nil_iff]
  intro b hb
  by_cases hlt : b.id.toNat < f.blocks.size
  · rw [reached_of_reachable (h b (Array.mem_toList_iff.1 hb) hlt) hlt]
  · have hnone : f.block? b.id = none := Array.getElem?_eq_none (Nat.le_of_not_lt hlt)
    rw [hnone]
    split <;> rfl

/-! ## Only reachable blocks are found -/

/-- A position that is marked in the end was marked before, or the number that names
it is reachable. -/
theorem mark_sound {f : Function} {work : List BlockId} {marks : Array Bool}
    (hwork : ∀ id ∈ work, f.Reachable id) {id : BlockId}
    (h : (f.mark work marks)[id.toNat]? = some true) :
    marks[id.toNat]? = some true ∨ f.Reachable id := by
  fun_induction mark f work marks with
  | case1 marks => exact .inl h
  | case2 marks first rest hlt hmarked ih =>
    exact ih (fun x hx => hwork x (List.mem_cons_of_mem _ hx)) h
  | case3 marks first rest hlt hmarked next ih =>
    have hfirst : f.Reachable first := hwork first List.mem_cons_self
    -- what the block branches to is reachable through it
    have hnext : ∀ x ∈ next, f.Reachable x := by
      intro x hx
      cases hblock : f.block? first with
      | none => simp [next, hblock] at hx
      | some b => exact hfirst.branch hblock (by simpa [next, hblock] using hx)
    have hall : ∀ x ∈ next ++ rest, f.Reachable x := by
      intro x hx
      rcases List.mem_append.1 hx with hx | hx
      · exact hnext x hx
      · exact hwork x (List.mem_cons_of_mem _ hx)
    rcases ih hall h with hset | hreach
    · rw [Array.getElem?_set] at hset
      by_cases heq : first.toNat = id.toNat
      · exact .inr (BlockId.toNat_injective heq ▸ hfirst)
      · rw [if_neg heq] at hset
        exact .inl hset
    · exact .inr hreach
  | case4 marks first rest hlt ih =>
    exact ih (fun x hx => hwork x (List.mem_cons_of_mem _ hx)) h

/-- The search finds the blocks that can be reached and no others. -/
theorem reached_iff {f : Function} {id : BlockId} (hlt : id.toNat < f.blocks.size) :
    f.reached[id.toNat]? = some true ↔ f.Reachable id := by
  constructor
  · intro h
    have hstart : ∀ x ∈ [f.entry], f.Reachable x := by
      intro x hx
      rw [List.mem_singleton.1 hx]
      exact .entry
    rcases mark_sound hstart h with hfalse | hreach
    · simp [hlt] at hfalse
    · exact hreach
  · intro h
    exact reached_of_reachable h hlt

/-! ## The search ends -/

/-- The search between two rounds. -/
structure Search where
  /-- The numbers still to be looked at. -/
  work : List BlockId
  /-- The positions found so far. -/
  marks : Array Bool

namespace Search

/-- One round: look at the first number of the list, and mark its position if it has
no mark yet.  Without a number nothing is done. -/
def round (f : Function) (s : Search) : Search :=
  match s.work with
  | [] => s
  | id :: rest =>
    if s.marks[id.toNat]? = some false then
      ⟨(match f.block? id with
        | some b => b.successors
        | none => []) ++ rest, s.marks.setIfInBounds id.toNat true⟩
    else
      ⟨rest, s.marks⟩

/-- The search before the first round. -/
def start (f : Function) : Search := ⟨[f.entry], Array.replicate f.blocks.size false⟩

variable {f : Function} {id : BlockId} {rest : List BlockId} {marks : Array Bool}

theorem round_of_unmarked (hlt : id.toNat < marks.size) (h : marks[id.toNat] = false) :
    round f ⟨id :: rest, marks⟩ = ⟨(match f.block? id with
      | some b => b.successors
      | none => []) ++ rest, marks.set id.toNat true⟩ := by
  simp [round, hlt, h, Array.setIfInBounds]

theorem round_of_marked (hlt : id.toNat < marks.size) (h : marks[id.toNat] = true) :
    round f ⟨id :: rest, marks⟩ = ⟨rest, marks⟩ := by
  simp [round, hlt, h]

theorem round_of_outside (h : ¬ id.toNat < marks.size) :
    round f ⟨id :: rest, marks⟩ = ⟨rest, marks⟩ := by
  simp [round, h]

/-- After so many rounds nothing is left to be looked at, and the marks are those that
`mark` gives. -/
theorem exists_rounds (f : Function) (work : List BlockId) (marks : Array Bool) :
    ∃ n ≤ work.length + 2 * marks.count false,
      (round f)^[n] ⟨work, marks⟩ = ⟨[], f.mark work marks⟩ := by
  fun_induction mark f work marks with
  | case1 marks => exact ⟨0, Nat.zero_le _, rfl⟩
  | case2 marks id rest hlt hmarked ih =>
    obtain ⟨n, hn, hrounds⟩ := ih
    refine ⟨n + 1, by simp; omega, ?_⟩
    rw [Function.iterate_succ_apply, round_of_marked hlt hmarked, hrounds]
  | case3 marks id rest hlt hmarked next ih =>
    obtain ⟨n, hn, hrounds⟩ := ih
    have hfalse : marks[id.toNat] = false := by simpa using hmarked
    have hcount : 0 < marks.count false :=
      Array.count_pos_iff.2 (hfalse ▸ Array.getElem_mem hlt)
    have hset : (marks.set id.toNat true).count false = marks.count false - 1 := by
      simp [Array.count_set, hfalse]
    -- the mark that is set pays for the two numbers that are put on the list
    have hnext : next.length ≤ 2 := by
      cases hblock : f.block? id with
      | none => simp [next, hblock]
      | some b =>
        cases hend : b.terminator with
        | none => simp [next, hblock, Block.successors, hend]
        | some t => simpa [next, hblock, Block.successors, hend] using t.length_successors_le
    refine ⟨n + 1, ?_, ?_⟩
    · simp only [List.length_append, hset, List.length_cons] at hn ⊢
      omega
    · rw [Function.iterate_succ_apply, round_of_unmarked hlt hfalse]
      exact hrounds
  | case4 marks id rest hlt ih =>
    obtain ⟨n, hn, hrounds⟩ := ih
    refine ⟨n + 1, by simp; omega, ?_⟩
    rw [Function.iterate_succ_apply, round_of_outside hlt, hrounds]

/-- The search of a function is over after a number of rounds that its size bounds. -/
theorem ends (f : Function) :
    ∃ n ≤ 1 + 2 * f.blocks.size, (round f)^[n] (start f) = ⟨[], f.reached⟩ := by
  obtain ⟨n, hn, hrounds⟩ := exists_rounds f [f.entry] (Array.replicate f.blocks.size false)
  exact ⟨n, by simpa using hn, hrounds⟩

end Search

end Function

end TapeFlow
