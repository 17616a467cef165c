import TapeFlow.Json.Writer
import TapeFlow.Proofs.JsonGrammar

/-!
# Reading back what was written

Whatever is written is a JSON text that denotes the value written, in either layout.  The
functions that write do so in front of a text that follows, as the rules of the grammar are
stated.

* `Json.spellsString_writeText`, `Json.spellsNumber_numeralText` — strings and numbers are
  written by the rules.
* `Json.spells_write` — so are values; `Json.denotes_render` — and whole texts.
* `Json.parse?_render` — hence a written value is read back.
-/

namespace TapeFlow

namespace Json

/-! ## Strings -/

theorem hexDigit_digitChar : ∀ n < 16, HexDigit (Nat.digitChar n) n := by
  unfold HexDigit
  decide

/-- A character is written as its code point. -/
theorem spellsUnit_writeChar (c : Char) : SpellsUnit (writeChar c) c.toNat := by
  unfold writeChar
  by_cases hshort : c = '"' ∨ c = '\\' ∨ c = '\x08' ∨ c = '\x0c' ∨ c = '\n' ∨ c = '\r' ∨ c = '\t'
  · rcases hshort with rfl | rfl | rfl | rfl | rfl | rfl | rfl <;> exact .escape (by decide)
  simp only [not_or] at hshort
  obtain ⟨hquote, hslash, hb, hf, hn, hr, ht⟩ := hshort
  simp only [hquote, hslash, hb, hf, hn, hr, ht, if_false]
  by_cases hcontrol : c.toNat < 0x20
  · have hvalue : ((0 * 16 + 0) * 16 + c.toNat / 16) * 16 + c.toNat % 16 = c.toNat := by omega
    have hzero := hexDigit_digitChar 0 (by decide)
    have hhex := SpellsUnit.hex hzero hzero (hexDigit_digitChar (c.toNat / 16) (by omega))
      (hexDigit_digitChar (c.toNat % 16) (by omega))
    rw [hvalue] at hhex
    rw [if_pos hcontrol]
    exact hhex
  · rw [if_neg hcontrol]
    exact .plain hquote hslash (Nat.not_lt.1 hcontrol)

theorem spellsUnits_writeChar (cs rest : List Char) :
    SpellsUnits (cs.flatMap writeChar ++ '"' :: rest) (cs.map Char.toNat) rest := by
  induction cs with
  | nil => exact .quote rest
  | cons c cs ih =>
    rw [List.flatMap_cons, List.append_assoc, List.map_cons]
    exact .unit (spellsUnit_writeChar c) ih

theorem encodes_toNat (cs : List Char) : Encodes (cs.map Char.toNat) cs := by
  induction cs with
  | nil => exact .nil
  | cons c cs ih => exact .scalar c ih

/-- Half of a surrogate pair is no text. -/
theorem not_encodes_high (text : List Char) : ¬ Encodes [0xd800] text := by
  intro h
  generalize hunits : [0xd800] = units at h
  cases h with
  | nil => cases hunits
  | scalar c hcs =>
    have hhigh := (not_surrogate c).1
    rw [← (List.cons.inj hunits).1] at hhigh
    exact absurd hhigh (by decide)
  | pair hc hcs => cases (List.cons.inj hunits).2

theorem spellsString_writeText (t : Option String) (rest : List Char) :
    SpellsString (writeText t rest) t rest := by
  cases t with
  | none =>
    have hunit : SpellsUnit ['\\', 'u', 'd', '8', '0', '0'] 0xd800 :=
      .hex (hexDigit_digitChar 13 (by decide)) (hexDigit_digitChar 8 (by decide))
        (hexDigit_digitChar 0 (by decide)) (hexDigit_digitChar 0 (by decide))
    exact .broken (.unit hunit (.quote rest)) not_encodes_high
  | some s => exact .text (spellsUnits_writeChar s.toList rest) (encodes_toNat s.toList)

/-! ## Numbers -/

/-- Only zero is written with a zero in front. -/
theorem head?_toDigits {n : Nat} (hn : n ≠ 0) : (Nat.toDigits 10 n).head? ≠ some '0' := by
  induction n using Nat.strongRecOn with
  | ind n ih =>
    by_cases hlt : n < 10
    · simpa [Nat.toDigits_of_lt_base hlt] using hn
    · have hrest := ih (n / 10) (by omega) (by omega)
      rw [Nat.toDigits_of_base_le (by decide) (by omega), List.head?_append]
      cases hdigits : Nat.toDigits 10 (n / 10) with
      | nil => exact absurd hdigits Nat.toDigits_ne_nil
      | cons d ds => rwa [hdigits] at hrest

theorem whole_toDigits (n : Nat) : Whole (Nat.toDigits 10 n) := by
  refine ⟨⟨Nat.toDigits_ne_nil, fun c hc => ?_⟩, fun hzero => ?_⟩
  · exact Nat.isDigit_of_mem_toDigits (by decide) (by decide) hc
  · by_cases hn : n = 0
    · rw [hn]
      rfl
    · exact absurd hzero (head?_toDigits hn)

/-- The characters of a written number, without what follows. -/
def numeralText (n : Option Int) : List Char := writeNumber n []

theorem writeNumber_eq (n : Option Int) (rest : List Char) :
    writeNumber n rest = numeralText n ++ rest := by
  unfold numeralText writeNumber
  split <;> simp

theorem spellsNumber_numeralText (n : Option Int) : SpellsNumber (numeralText n) n := by
  match n with
  | none => exact .minusZero
  | some (.ofNat k) =>
    have hnatural := SpellsNumber.natural (whole_toDigits k)
    rw [Nat.ofDigitChars_ten_toDigits] at hnatural
    simpa [numeralText, writeNumber] using hnatural
  | some (.negSucc k) =>
    have hnegative := SpellsNumber.negative (whole_toDigits (k + 1)) Nat.ofDigitChars_ten_toDigits
    rw [← Int.negSucc_eq] at hnegative
    simpa [numeralText, writeNumber] using hnegative

/-! ## Blanks -/

theorem Spells.pad {blanks cs rest : List Char} {j : Json} (hblanks : ∀ c ∈ blanks, Blank c)
    (h : Spells cs j rest) : Spells (blanks ++ cs) j rest := by
  induction blanks with
  | nil => exact h
  | cons c blanks ih =>
    obtain ⟨hc, hblanks⟩ := List.forall_mem_cons.1 hblanks
    exact .before hc (ih hblanks)

theorem Spells.padBehind {blanks cs rest : List Char} {j : Json} (hblanks : ∀ c ∈ blanks, Blank c)
    (h : Spells cs j (blanks ++ rest)) : Spells cs j rest := by
  induction blanks with
  | nil => exact h
  | cons c blanks ih =>
    obtain ⟨hc, hblanks⟩ := List.forall_mem_cons.1 hblanks
    exact ih hblanks (.behind hc h)

theorem blank_newline (layout : Layout) (depth : Nat) :
    ∀ c ∈ layout.newline depth, Blank c := by
  intro c hc
  cases layout with
  | compact => cases hc
  | pretty =>
    simp only [Layout.newline, List.mem_cons, List.mem_replicate] at hc
    rcases hc with rfl | ⟨-, rfl⟩
    · exact .inr (.inr (.inl rfl))
    · exact .inl rfl

theorem exists_colon (layout : Layout) :
    ∃ blanks, (∀ c ∈ blanks, Blank c) ∧ layout.colon = ':' :: blanks := by
  cases layout with
  | compact => exact ⟨[], nofun, rfl⟩
  | pretty => exact ⟨[' '], by simp [Blank], rfl⟩

/-! ## Values -/

mutual

/-- A written value is a value. -/
theorem spells_write (layout : Layout) (depth : Nat) (j : Json) (rest : List Char) :
    Spells (write layout depth j rest) j rest := by
  match j with
  | .null => exact .null rest
  | .bool true => exact .yes rest
  | .bool false => exact .no rest
  | .number n =>
    rw [write, writeNumber_eq]
    exact .number (spellsNumber_numeralText n) rest
  | .string t => exact .string (spellsString_writeText t rest)
  | .array [] => exact Spells.emptyArray (List.forall_mem_nil Blank) rest
  | .array (item :: items) =>
    have hitem := spells_write layout (depth + 1) item (writeItems layout depth items rest)
    exact .array (spells_writeItems layout depth items rest
      (hitem.pad (blank_newline layout (depth + 1))))
  | .object [] => exact Spells.emptyObject (List.forall_mem_nil Blank) rest
  | .object ((name, value) :: members) =>
    have hvalue := spells_write layout (depth + 1) value (writeMembers layout depth members rest)
    exact .object (spells_writeMembers layout depth members rest name value hvalue)

/-- So are the items of an array, when one of them has been written. -/
theorem spells_writeItems (layout : Layout) (depth : Nat) (items : List Json) (rest : List Char)
    {cs : List Char} {j : Json} (h : Spells cs j (writeItems layout depth items rest)) :
    SpellsItems cs (j :: items) rest := by
  match items with
  | [] => exact .last (h.padBehind (blank_newline layout depth))
  | item :: items =>
    have hitem := spells_write layout (depth + 1) item (writeItems layout depth items rest)
    exact .cons h (spells_writeItems layout depth items rest
      (hitem.pad (blank_newline layout (depth + 1))))

/-- And the members of an object, when the value of one of them has been written. -/
theorem spells_writeMembers (layout : Layout) (depth : Nat)
    (members : List (Option String × Json)) (rest : List Char) (name : Option String)
    (value : Json) {cs : List Char}
    (h : Spells cs value (writeMembers layout depth members rest)) :
    SpellsMembers (layout.newline (depth + 1) ++ writeText name (layout.colon ++ cs))
      ((name, value) :: members) rest := by
  obtain ⟨blanks, hblanks, hcolon⟩ := exists_colon layout
  have hname : Spells (layout.newline (depth + 1) ++ writeText name (layout.colon ++ cs))
      (.string name) (':' :: (blanks ++ cs)) := by
    rw [hcolon]
    exact (Spells.string (spellsString_writeText name _)).pad (blank_newline layout (depth + 1))
  match members with
  | [] => exact .last hname ((h.padBehind (blank_newline layout depth)).pad hblanks)
  | (name', value') :: members =>
    have hvalue := spells_write layout (depth + 1) value' (writeMembers layout depth members rest)
    exact .cons hname (h.pad hblanks)
      (spells_writeMembers layout depth members rest name' value' hvalue)

end

theorem denotes_render (layout : Layout) (j : Json) : Denotes (j.render layout) j := by
  rw [Denotes, render, String.toList_ofList]
  exact spells_write layout 0 j []

/-- A value is read back from its text, whichever way it is laid out. -/
theorem parse?_render (layout : Layout) (j : Json) : parse? (j.render layout) = some j :=
  parse?_of_denotes (denotes_render layout j)

end Json

end TapeFlow
