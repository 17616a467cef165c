import Mathlib.Data.Nat.SuccPred
import Mathlib.Data.Prod.Lex
import Mathlib.Order.Interval.Set.Monotone
import TapeFlow.Source.Location

/-!
# Places in reading order

Lines and columns are for a reader, offsets are for the program.  They are two names for the
same positions: reading on from one offset always comes to a later place, though the column
falls back at each newline, so a place that is shown belongs to one offset only.

* `Location.lt_iff` — the order of places: by line, and by column within a line.
* `Location.lt_advance` — every byte leads to a later place; `Location.strictMonoOn_ofOffset` —
  hence later offsets stand at later places, up to the end of the source.
* `Location.LastLine` — the bytes after the last newline of a text;
  `Location.LastLine.foldl_advance` — they and the number of newlines give the place reached.
* `Location.ofOffset_embeds` — what the place of an offset is, and that it is as good as the
  offset.
-/

namespace TapeFlow

namespace Location

/-! ## The order of places -/

/-- What places are compared by. -/
def key (l : Location) : ℕ ×ₗ ℕ := toLex (l.line, l.column)

theorem key_injective : Function.Injective key := by
  rintro ⟨line, column⟩ ⟨line', column'⟩ h
  obtain ⟨rfl, rfl⟩ := Prod.mk.inj (toLex.injective h)
  rfl

/-- Reading order: the line decides, and within a line the column. -/
instance : PartialOrder Location := PartialOrder.lift key key_injective

theorem lt_iff {l m : Location} :
    l < m ↔ l.line < m.line ∨ l.line = m.line ∧ l.column < m.column :=
  Prod.Lex.toLex_lt_toLex

/-! ## Reading on -/

theorem advance_newline (l : Location) : l.advance 0x0a = ⟨l.line + 1, 1⟩ := if_pos rfl

theorem advance_of_ne {b : UInt8} (h : b ≠ 0x0a) (l : Location) :
    l.advance b = ⟨l.line, l.column + 1⟩ := if_neg h

/-- A byte leads to a later place: a newline to a later line, any other to a later column. -/
theorem lt_advance (l : Location) (b : UInt8) : l < l.advance b := by
  by_cases h : b = 0x0a
  · subst h
    rw [advance_newline, lt_iff]
    exact .inl (Nat.lt_succ_self _)
  · rw [advance_of_ne h, lt_iff]
    exact .inr ⟨rfl, Nat.lt_succ_self _⟩

/-- The place of the next offset is the one after the byte in between. -/
theorem ofOffset_succ {source : Source} {i : Nat} (h : i < source.length) :
    ofOffset source (i + 1) = (ofOffset source i).advance source[i] := by
  rw [ofOffset, List.take_succ_eq_append_getElem h, List.foldl_append]
  rfl

theorem strictMonoOn_ofOffset (source : Source) :
    StrictMonoOn (ofOffset source) (Set.Iic source.length) := by
  apply strictMonoOn_Iic_of_lt_succ
  intro i hi
  show ofOffset source i < ofOffset source (i + 1)
  rw [ofOffset_succ hi]
  exact lt_advance _ _

/-- Past the end there is nothing to read. -/
theorem ofOffset_of_length_le {source : Source} {i : Nat} (h : source.length ≤ i) :
    ofOffset source i = ofOffset source source.length := by
  rw [ofOffset, ofOffset, List.take_of_length_le h, List.take_length]

/-! ## The line that is being read -/

/-- `LastLine seen line`: of the bytes `seen`, those after the last newline are `line`. -/
inductive LastLine : Source → Source → Prop where
  /-- Without a newline these are all. -/
  | whole {line : Source} (unbroken : 0x0a ∉ line) : LastLine line line
  /-- A newline is the last one if no other comes after it. -/
  | after (before : Source) {line : Source} (unbroken : 0x0a ∉ line) :
      LastLine (before ++ 0x0a :: line) line

theorem exists_lastLine (seen : Source) : ∃ line, LastLine seen line := by
  induction seen with
  | nil => exact ⟨[], .whole List.not_mem_nil⟩
  | cons b seen ih =>
    obtain ⟨line, h⟩ := ih
    -- a byte in front belongs to the last line only if no newline comes after it
    cases h with
    | whole unbroken =>
      by_cases hb : b = 0x0a
      · subst hb
        exact ⟨seen, .after [] unbroken⟩
      · refine ⟨b :: seen, .whole ?_⟩
        rw [List.mem_cons]
        exact not_or.2 ⟨Ne.symm hb, unbroken⟩
    | after before unbroken => exact ⟨line, .after (b :: before) unbroken⟩

theorem LastLine.isSuffix {seen line : Source} (h : LastLine seen line) : line <:+ seen := by
  cases h with
  | whole => exact List.suffix_rfl
  | after before => exact ⟨before ++ [0x0a], by simp⟩

/-- Each newline counts one line. -/
theorem line_foldl_advance (l : Location) (seen : Source) :
    (seen.foldl advance l).line = l.line + seen.count 0x0a := by
  induction seen generalizing l with
  | nil => rfl
  | cons b seen ih =>
    rw [List.foldl_cons, ih]
    by_cases h : b = 0x0a
    · subst h
      rw [advance_newline, List.count_cons_self]
      exact Nat.succ_add_eq_add_succ _ _
    · rw [advance_of_ne h, List.count_cons_of_ne h]

/-- Within a line each byte counts one column. -/
theorem column_foldl_advance {line : Source} (unbroken : 0x0a ∉ line) (l : Location) :
    (line.foldl advance l).column = l.column + line.length := by
  induction line generalizing l with
  | nil => rfl
  | cons b line ih =>
    obtain ⟨hb, hline⟩ := not_or.1 (List.mem_cons.not.1 unbroken)
    rw [List.foldl_cons, ih hline, advance_of_ne (Ne.symm hb), List.length_cons]
    exact Nat.succ_add_eq_add_succ _ _

/-- The column after some bytes is known from their last line, wherever the earlier ones
led. -/
theorem LastLine.column_eq {seen line : Source} (h : LastLine seen line) :
    (seen.foldl advance start).column = 1 + line.length := by
  cases h with
  | whole unbroken => exact column_foldl_advance unbroken start
  | after before unbroken =>
    rw [List.foldl_append, List.foldl_cons, column_foldl_advance unbroken, advance_newline]

theorem LastLine.foldl_advance {seen line : Source} (h : LastLine seen line) :
    seen.foldl advance start = ⟨1 + seen.count 0x0a, 1 + line.length⟩ := by
  have hline : (seen.foldl advance start).line = 1 + seen.count 0x0a :=
    line_foldl_advance start seen
  exact key_injective (congrArg toLex (Prod.ext hline h.column_eq))

/-- There is one last line only. -/
theorem LastLine.unique {seen line line' : Source} (h : LastLine seen line)
    (h' : LastLine seen line') : line = line' := by
  -- both lengths are the column after `seen`, and both lines end where `seen` ends
  have hlength : line.length = line'.length :=
    Nat.add_left_cancel (h.column_eq.symm.trans h'.column_eq)
  exact (List.suffix_of_suffix_length_le h.isSuffix h'.isSuffix hlength.le).eq_of_length hlength

theorem existsUnique_lastLine (seen : Source) : ∃! line, LastLine seen line := by
  obtain ⟨line, h⟩ := exists_lastLine seen
  exact ⟨line, h, fun _ h' => h'.unique h⟩

/-! ## Offsets and their places -/

/-- Up to the end of the source, places and offsets are in the same order and no two offsets
share a place.  The line of an offset counts the newlines before it, the column the bytes since
the last of them, and what is past the end is shown at the end. -/
theorem ofOffset_embeds (source : Source) :
    (∀ i j, i ≤ source.length → j ≤ source.length →
      (ofOffset source i < ofOffset source j ↔ i < j) ∧
      (ofOffset source i = ofOffset source j ↔ i = j)) ∧
    (∀ i, (∃! line, LastLine (source.take i) line) ∧
      ∀ line, LastLine (source.take i) line →
        ofOffset source i = ⟨1 + (source.take i).count 0x0a, 1 + line.length⟩) ∧
    ∀ i, source.length ≤ i → ofOffset source i = ofOffset source source.length := by
  have hmono := strictMonoOn_ofOffset source
  refine ⟨?_, ?_, fun i => ofOffset_of_length_le⟩
  · intro i j hi hj
    exact ⟨hmono.lt_iff_lt hi hj, hmono.injOn.eq_iff hi hj⟩
  · intro i
    exact ⟨existsUnique_lastLine _, fun line h => h.foldl_advance⟩

/-- A byte that is no text, a line with nothing but a carriage return, and a newline at the end,
after which the column falls back. -/
theorem ofOffset_embeds_trailing_newline :
    let source : Source := [0xff, 0x0a, 0x0d, 0x0a]
    (ofOffset source 3 < ofOffset source 4 ∧ ofOffset source 1 ≠ ofOffset source 2) ∧
      (LastLine (source.take 3) [0x0d] ∧ ofOffset source 3 = ⟨2, 2⟩) ∧
      (LastLine (source.take 4) [] ∧ ofOffset source 4 = ⟨3, 1⟩) ∧
      ofOffset source 9 = ofOffset source 4 := by
  intro source
  obtain ⟨horder, hplace, hpast⟩ := ofOffset_embeds source
  have hthree : LastLine (source.take 3) [0x0d] := .after [0xff] (by decide)
  have hfour : LastLine (source.take 4) [] := .after [0xff, 0x0a, 0x0d] (by decide)
  refine ⟨⟨?_, ?_⟩, ⟨hthree, ?_⟩, ⟨hfour, ?_⟩, hpast 9 (by decide)⟩
  · exact (horder 3 4 (by decide) (by decide)).1.2 (by decide)
  · exact fun h => absurd ((horder 1 2 (by decide) (by decide)).2.1 h) (by decide)
  · exact ((hplace 3).2 _ hthree).trans (by decide)
  · exact ((hplace 4).2 _ hfour).trans (by decide)

end Location

end TapeFlow
