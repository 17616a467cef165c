import Mathlib.Data.List.TakeWhile
import TapeFlow.Json.Reader

/-!
# The grammar of JSON

What a JSON text is and what it denotes, said without a reader.  Where something is spelled in
front of more text, a rule relates the text with the thing at its start, the thing, and the text
that is left.

* `Json.SpellsNumber`, `Json.SpellsString` — numbers and strings, with all their spellings.
* `Json.Spells` — values, with blanks around them; `Json.Denotes` — a whole text.
* `Json.scan_of_number`, `Json.scan_of_string` — a number or a string is one lexeme.
* `Json.Reader.run_of_spells` — a reader that waits for a value finishes the one that is spelled
  there and goes on with what is left.
* `Json.parse?_of_denotes` — hence every JSON text is read, and as what it denotes.
-/

namespace TapeFlow

namespace Json

/-! ## Rules -/

/-- A blank character. -/
def Blank (c : Char) : Prop := c = ' ' ∨ c = '\t' ∨ c = '\n' ∨ c = '\r'

/-- Digits, at least one. -/
def Digits (ds : List Char) : Prop := ds ≠ [] ∧ ∀ d ∈ ds, d.isDigit = true

/-- The whole part of a number: no zero stands in front of other digits. -/
def Whole (ds : List Char) : Prop := Digits ds ∧ (ds.head? = some '0' → ds = ['0'])

/-- A fraction, or nothing. -/
inductive Fraction : List Char → Prop where
  /-- Nothing. -/
  | nothing : Fraction []
  /-- A point and digits. -/
  | point {ds : List Char} (hds : Digits ds) : Fraction ('.' :: ds)

/-- An exponent, or nothing. -/
inductive Exponent : List Char → Prop where
  /-- Nothing. -/
  | nothing : Exponent []
  /-- A mark, a sign or none, and digits. -/
  | mark {c : Char} {sign ds : List Char} (hmark : c = 'e' ∨ c = 'E')
    (hsign : sign = [] ∨ sign = ['+'] ∨ sign = ['-']) (hds : Digits ds) :
    Exponent (c :: (sign ++ ds))

/-- A number.  Minus zero, and what has a fraction or an exponent, is no integer. -/
inductive SpellsNumber : List Char → Option Int → Prop where
  /-- An integer that is not negative. -/
  | natural {ds : List Char} (hds : Whole ds) :
    SpellsNumber ds (some (Nat.ofDigitChars 10 ds 0))
  /-- A negative integer. -/
  | negative {ds : List Char} {n : Nat} (hds : Whole ds)
    (hvalue : Nat.ofDigitChars 10 ds 0 = n + 1) : SpellsNumber ('-' :: ds) (some (-(n + 1)))
  /-- Minus zero. -/
  | minusZero : SpellsNumber ['-', '0'] none
  /-- A number with a fraction or an exponent. -/
  | real {sign ds fraction exponent : List Char} (hsign : sign = [] ∨ sign = ['-'])
    (hds : Whole ds) (hfraction : Fraction fraction) (hexponent : Exponent exponent)
    (hsome : fraction ++ exponent ≠ []) : SpellsNumber (sign ++ (ds ++ (fraction ++ exponent))) none

/-- The characters that a backslash stands in front of, and what they then stand for. -/
def escapes : List (Char × Char) :=
  [('"', '"'), ('\\', '\\'), ('/', '/'), ('b', '\x08'), ('f', '\x0c'), ('n', '\n'), ('r', '\r'),
    ('t', '\t')]

/-- A hexadecimal digit and its value. -/
def HexDigit (c : Char) (n : Nat) : Prop :=
  ['0', '1', '2', '3', '4', '5', '6', '7', '8', '9', 'a', 'b', 'c', 'd', 'e', 'f'][n]? = some c ∨
    ['0', '1', '2', '3', '4', '5', '6', '7', '8', '9', 'A', 'B', 'C', 'D', 'E', 'F'][n]? = some c

/-- One code point of a string, or half of a surrogate pair. -/
inductive SpellsUnit : List Char → Nat → Prop where
  /-- A character that stands for itself. -/
  | plain {c : Char} (hquote : c ≠ '"') (hslash : c ≠ '\\') (hcontrol : 0x20 ≤ c.toNat) :
    SpellsUnit [c] c.toNat
  /-- A character behind a backslash. -/
  | escape {c e : Char} (hescape : (c, e) ∈ escapes) : SpellsUnit ['\\', c] e.toNat
  /-- Four hexadecimal digits behind a backslash. -/
  | hex {a b c d : Char} {w x y z : Nat} (ha : HexDigit a w) (hb : HexDigit b x)
    (hc : HexDigit c y) (hd : HexDigit d z) :
    SpellsUnit ['\\', 'u', a, b, c, d] (((w * 16 + x) * 16 + y) * 16 + z)

/-- The rest of a string after some of it, up to its closing quote. -/
inductive SpellsUnits : List Char → List Nat → List Char → Prop where
  /-- The closing quote. -/
  | quote (rest : List Char) : SpellsUnits ('"' :: rest) [] rest
  /-- One more unit. -/
  | unit {cs cs' rest : List Char} {unit : Nat} {units : List Nat} (hunit : SpellsUnit cs unit)
    (hunits : SpellsUnits cs' units rest) : SpellsUnits (cs ++ cs') (unit :: units) rest

/-- The code points of a text, where those past the first 65536 may come in two halves. -/
inductive Encodes : List Nat → List Char → Prop where
  /-- No text. -/
  | nil : Encodes [] []
  /-- A code point in one piece. -/
  | scalar (c : Char) {units : List Nat} {cs : List Char} (hcs : Encodes units cs) :
    Encodes (c.toNat :: units) (c :: cs)
  /-- A code point in two halves. -/
  | pair {c : Char} (hc : 0x10000 ≤ c.toNat) {units : List Nat} {cs : List Char}
    (hcs : Encodes units cs) :
    Encodes ((0xd800 + (c.toNat - 0x10000) / 0x400) :: (0xdc00 + (c.toNat - 0x10000) % 0x400) ::
      units) (c :: cs)

/-- A string: a text, or none if half of a pair stands alone in it. -/
inductive SpellsString : List Char → Option String → List Char → Prop where
  /-- A text. -/
  | text {cs rest : List Char} {units : List Nat} {s : String}
    (hunits : SpellsUnits cs units rest) (htext : Encodes units s.toList) :
    SpellsString ('"' :: cs) (some s) rest
  /-- No text. -/
  | broken {cs rest : List Char} {units : List Nat} (hunits : SpellsUnits cs units rest)
    (hbroken : ∀ text, ¬ Encodes units text) : SpellsString ('"' :: cs) none rest

mutual

/-- A value, with or without blanks around it. -/
inductive Spells : List Char → Json → List Char → Prop where
  /-- The word for null. -/
  | null (rest : List Char) : Spells ('n' :: 'u' :: 'l' :: 'l' :: rest) .null rest
  /-- The word for what is true. -/
  | yes (rest : List Char) : Spells ('t' :: 'r' :: 'u' :: 'e' :: rest) (.bool true) rest
  /-- The word for what is false. -/
  | no (rest : List Char) : Spells ('f' :: 'a' :: 'l' :: 's' :: 'e' :: rest) (.bool false) rest
  /-- A number. -/
  | number {cs : List Char} {n : Option Int} (hnumber : SpellsNumber cs n) (rest : List Char) :
    Spells (cs ++ rest) (.number n) rest
  /-- A string. -/
  | string {cs rest : List Char} {t : Option String} (hstring : SpellsString cs t rest) :
    Spells cs (.string t) rest
  /-- Square brackets with nothing between them. -/
  | emptyArray {blanks : List Char} (hblanks : ∀ c ∈ blanks, Blank c) (rest : List Char) :
    Spells ('[' :: (blanks ++ ']' :: rest)) (.array []) rest
  /-- Values in square brackets. -/
  | array {cs rest : List Char} {items : List Json} (hitems : SpellsItems cs items rest) :
    Spells ('[' :: cs) (.array items) rest
  /-- Braces with nothing between them. -/
  | emptyObject {blanks : List Char} (hblanks : ∀ c ∈ blanks, Blank c) (rest : List Char) :
    Spells ('\x7b' :: (blanks ++ '\x7d' :: rest)) (.object []) rest
  /-- Named values in braces. -/
  | object {cs rest : List Char} {members : List (Option String × Json)}
    (hmembers : SpellsMembers cs members rest) : Spells ('\x7b' :: cs) (.object members) rest
  /-- A blank in front. -/
  | before {c : Char} {cs rest : List Char} {j : Json} (hc : Blank c)
    (hvalue : Spells cs j rest) : Spells (c :: cs) j rest
  /-- A blank behind. -/
  | behind {c : Char} {cs rest : List Char} {j : Json} (hc : Blank c)
    (hvalue : Spells cs j (c :: rest)) : Spells cs j rest

/-- The items of an array, with commas between them, and its end. -/
inductive SpellsItems : List Char → List Json → List Char → Prop where
  /-- The last one. -/
  | last {cs rest : List Char} {j : Json} (hvalue : Spells cs j (']' :: rest)) :
    SpellsItems cs [j] rest
  /-- One, and others. -/
  | cons {cs cs' rest : List Char} {j : Json} {items : List Json}
    (hvalue : Spells cs j (',' :: cs')) (hothers : SpellsItems cs' items rest) :
    SpellsItems cs (j :: items) rest

/-- The members of an object, with commas between them, and its end. -/
inductive SpellsMembers : List Char → List (Option String × Json) → List Char → Prop where
  /-- The last one. -/
  | last {cs cs' rest : List Char} {name : Option String} {j : Json}
    (hname : Spells cs (.string name) (':' :: cs')) (hvalue : Spells cs' j ('\x7d' :: rest)) :
    SpellsMembers cs [(name, j)] rest
  /-- One, and others. -/
  | cons {cs cs' cs'' rest : List Char} {name : Option String} {j : Json}
    {members : List (Option String × Json)} (hname : Spells cs (.string name) (':' :: cs'))
    (hvalue : Spells cs' j (',' :: cs'')) (hothers : SpellsMembers cs'' members rest) :
    SpellsMembers cs ((name, j) :: members) rest

end

/-- The text is a JSON text, and this is what it denotes. -/
def Denotes (text : String) (j : Json) : Prop := Spells text.toList j []

/-! ## Strings -/

theorem HexDigit.hexDigit?_eq {c : Char} {n : Nat} (h : HexDigit c n) : hexDigit? c = some n := by
  rcases h with h | h
  · obtain ⟨hn, rfl⟩ := List.getElem?_eq_some_iff.1 h
    exact (by decide : ∀ i : Fin 16, hexDigit? (['0', '1', '2', '3', '4', '5', '6', '7', '8', '9',
      'a', 'b', 'c', 'd', 'e', 'f'].get i) = some i.val) ⟨n, hn⟩
  · obtain ⟨hn, rfl⟩ := List.getElem?_eq_some_iff.1 h
    exact (by decide : ∀ i : Fin 16, hexDigit? (['0', '1', '2', '3', '4', '5', '6', '7', '8', '9',
      'A', 'B', 'C', 'D', 'E', 'F'].get i) = some i.val) ⟨n, hn⟩

theorem HexDigit.lt {c : Char} {n : Nat} (h : HexDigit c n) : n < 16 := by
  rcases h with h | h
  · exact (List.getElem?_eq_some_iff.1 h).1
  · exact (List.getElem?_eq_some_iff.1 h).1

/-- A unit is read as what it stands for. -/
theorem SpellsUnit.scanUnits_append {cs : List Char} {unit : Nat} (h : SpellsUnit cs unit)
    (seen : List Nat) (rest : List Char) :
    scanUnits seen (cs ++ rest) = scanUnits (unit :: seen) rest := by
  cases h with
  | plain hquote hslash hcontrol =>
    rw [List.singleton_append, scanUnits]
    · rw [if_neg (Nat.not_lt.2 hcontrol)]
    · exact hquote
    · intro a b d e tail h
      exact absurd h hslash
    · intro d tail h
      exact absurd h hslash
  | escape hescape =>
    simp only [escapes, List.mem_cons, Prod.mk.injEq, List.not_mem_nil, or_false] at hescape
    rcases hescape with ⟨rfl, rfl⟩ | ⟨rfl, rfl⟩ | ⟨rfl, rfl⟩ | ⟨rfl, rfl⟩ | ⟨rfl, rfl⟩ |
      ⟨rfl, rfl⟩ | ⟨rfl, rfl⟩ | ⟨rfl, rfl⟩ <;> simp [scanUnits, escaped?]
  | hex ha hb hc hd =>
    simp [scanUnits, codeUnit?, ha.hexDigit?_eq, hb.hexDigit?_eq, hc.hexDigit?_eq,
      hd.hexDigit?_eq]

theorem SpellsUnit.lt {cs : List Char} {unit : Nat} (h : SpellsUnit cs unit) :
    unit < 0x110000 := by
  have hchar : ∀ c : Char, c.toNat < 0x110000 := by
    intro c
    have hvalid := c.valid
    have hnat : c.toNat = c.val.toNat := rfl
    simp only [UInt32.isValidChar, Nat.isValidChar] at hvalid
    omega
  cases h with
  | plain => exact hchar _
  | escape => exact hchar _
  | hex ha hb hc hd =>
    have := ha.lt
    have := hb.lt
    have := hc.lt
    have := hd.lt
    omega

theorem SpellsUnits.scanUnits_eq {cs rest : List Char} {units : List Nat}
    (h : SpellsUnits cs units rest) (seen : List Nat) :
    scanUnits seen cs = some (seen.reverse ++ units, rest) := by
  induction h generalizing seen with
  | quote rest => simp [scanUnits]
  | unit hunit hunits ih =>
    rw [hunit.scanUnits_append, ih, List.reverse_cons, List.append_assoc]
    rfl

theorem SpellsUnits.lt {cs rest : List Char} {units : List Nat} (h : SpellsUnits cs units rest) :
    ∀ unit ∈ units, unit < 0x110000 := by
  induction h with
  | quote rest => exact fun unit hmem => absurd hmem List.not_mem_nil
  | unit hunit hunits ih => exact List.forall_mem_cons.2 ⟨hunit.lt, ih⟩

/-- A character is no half of a surrogate pair. -/
theorem not_surrogate (c : Char) :
    isHighSurrogate c.toNat = false ∧ isLowSurrogate c.toNat = false := by
  have hvalid := c.valid
  have hnat : c.toNat = c.val.toNat := rfl
  simp only [isHighSurrogate, isLowSurrogate, UInt32.isValidChar, Nat.isValidChar] at hvalid ⊢
  simp only [Bool.and_eq_false_iff, decide_eq_false_iff_not]
  omega

theorem joinUnits_scalar (seen : List Char) (c : Char) (units : List Nat) :
    joinUnits seen (c.toNat :: units) = joinUnits (c :: seen) units := by
  obtain ⟨hhigh, hlow⟩ := not_surrogate c
  cases units with
  | nil => simp [joinUnits, hhigh, hlow, Char.ofNat_toNat]
  | cons next units => simp [joinUnits, hhigh, hlow, Char.ofNat_toNat]

theorem joinUnits_pair (seen : List Char) {c : Char} (hc : 0x10000 ≤ c.toNat) (units : List Nat) :
    joinUnits seen ((0xd800 + (c.toNat - 0x10000) / 0x400) ::
      (0xdc00 + (c.toNat - 0x10000) % 0x400) :: units) = joinUnits (c :: seen) units := by
  have hlt : c.toNat < 0x110000 := by
    have hvalid := c.valid
    have hnat : c.toNat = c.val.toNat := rfl
    simp only [UInt32.isValidChar, Nat.isValidChar] at hvalid
    omega
  have hhigh : isHighSurrogate (0xd800 + (c.toNat - 0x10000) / 0x400) = true := by
    simp only [isHighSurrogate, Bool.and_eq_true, decide_eq_true_eq]
    omega
  have hlow : isLowSurrogate (0xdc00 + (c.toNat - 0x10000) % 0x400) = true := by
    simp only [isLowSurrogate, Bool.and_eq_true, decide_eq_true_eq]
    omega
  have hchar : ofSurrogates (0xd800 + (c.toNat - 0x10000) / 0x400)
      (0xdc00 + (c.toNat - 0x10000) % 0x400) = c := by
    have hnat : (0xd800 + (c.toNat - 0x10000) / 0x400 - 0xd800) * 0x400 +
        (0xdc00 + (c.toNat - 0x10000) % 0x400 - 0xdc00) + 0x10000 = c.toNat := by omega
    rw [ofSurrogates, hnat, Char.ofNat_toNat]
  rw [joinUnits, if_pos hhigh, if_pos hlow, hchar]

theorem Encodes.joinUnits_eq {units : List Nat} {cs : List Char} (h : Encodes units cs)
    (seen : List Char) : joinUnits seen units = some (seen.reverse ++ cs) := by
  induction h generalizing seen with
  | nil => simp [joinUnits]
  | scalar c hcs ih => rw [joinUnits_scalar, ih, List.reverse_cons, List.append_assoc]; rfl
  | pair hc hcs ih => rw [joinUnits_pair seen hc, ih, List.reverse_cons, List.append_assoc]; rfl

theorem toNat_ofNat {n : Nat} (h : n.isValidChar) : (Char.ofNat n).toNat = n := by
  rw [Char.ofNat, dif_pos h]
  rfl

theorem toNat_ofNat_of_not_surrogate {unit : Nat} (hlt : unit < 0x110000)
    (hhigh : isHighSurrogate unit = false) (hlow : isLowSurrogate unit = false) :
    (Char.ofNat unit).toNat = unit := by
  simp only [isHighSurrogate, isLowSurrogate, Bool.and_eq_false_iff,
    decide_eq_false_iff_not] at hhigh hlow
  apply toNat_ofNat
  simp only [Nat.isValidChar]
  omega

theorem exists_of_surrogates {high low : Nat} (hhigh : isHighSurrogate high = true)
    (hlow : isLowSurrogate low = true) :
    ∃ c : Char, 0x10000 ≤ c.toNat ∧ 0xd800 + (c.toNat - 0x10000) / 0x400 = high ∧
      0xdc00 + (c.toNat - 0x10000) % 0x400 = low := by
  simp only [isHighSurrogate, isLowSurrogate, Bool.and_eq_true, decide_eq_true_eq] at hhigh hlow
  have hnat : (ofSurrogates high low).toNat =
      (high - 0xd800) * 0x400 + (low - 0xdc00) + 0x10000 := by
    apply toNat_ofNat
    simp only [Nat.isValidChar]
    omega
  refine ⟨ofSurrogates high low, ?_⟩
  rw [hnat]
  omega

/-- Where surrogates can be put together, there is a text. -/
theorem exists_encodes {seen cs : List Char} {units : List Nat}
    (hlt : ∀ unit ∈ units, unit < 0x110000) (h : joinUnits seen units = some cs) :
    ∃ text, Encodes units text := by
  fun_induction joinUnits seen units with
  | case1 seen => exact ⟨[], .nil⟩
  | case2 seen unit hhalf => cases h
  | case3 seen unit hwhole =>
    simp only [Bool.or_eq_true, not_or, Bool.not_eq_true] at hwhole
    have hunit := toNat_ofNat_of_not_surrogate (hlt _ List.mem_cons_self) hwhole.1 hwhole.2
    have hencodes := Encodes.scalar (Char.ofNat unit) .nil
    rw [hunit] at hencodes
    exact ⟨_, hencodes⟩
  | case4 seen unit next rest hhigh hlow ih =>
    obtain ⟨text, htext⟩ := ih (fun u hu => hlt u (by simp [hu])) h
    obtain ⟨c, hc, hfirst, hsecond⟩ := exists_of_surrogates hhigh hlow
    have hencodes := Encodes.pair hc htext
    rw [hfirst, hsecond] at hencodes
    exact ⟨_, hencodes⟩
  | case5 | case6 => cases h
  | case7 seen unit next rest hhigh hlow ih =>
    obtain ⟨text, htext⟩ := ih (fun u hu => hlt u (List.mem_cons_of_mem _ hu)) h
    have hunit := toNat_ofNat_of_not_surrogate (hlt _ List.mem_cons_self)
      (Bool.not_eq_true _ ▸ hhigh) (Bool.not_eq_true _ ▸ hlow)
    have hencodes := Encodes.scalar (Char.ofNat unit) htext
    rw [hunit] at hencodes
    exact ⟨_, hencodes⟩

theorem textOfUnits_of_encodes {units : List Nat} {s : String} (h : Encodes units s.toList) :
    textOfUnits units = some s := by
  rw [textOfUnits, h.joinUnits_eq]
  simp

theorem textOfUnits_of_broken {units : List Nat} (hlt : ∀ unit ∈ units, unit < 0x110000)
    (h : ∀ text, ¬ Encodes units text) : textOfUnits units = none := by
  rw [textOfUnits, Option.map_eq_none_iff, Option.eq_none_iff_forall_ne_some]
  intro cs hcs
  obtain ⟨text, htext⟩ := exists_encodes hlt hcs
  exact h text htext

/-- A string is one lexeme. -/
theorem scan_of_string {cs rest : List Char} {t : Option String} (h : SpellsString cs t rest) :
    scan cs = .lexeme (.text t) rest := by
  cases h with
  | text hunits htext =>
    have hscan := hunits.scanUnits_eq []
    simp only [List.reverse_nil, List.nil_append] at hscan
    simp [scan, isBlank, scanSolid, hscan, textOfUnits_of_encodes htext]
  | broken hunits hbroken =>
    have hscan := hunits.scanUnits_eq []
    simp only [List.reverse_nil, List.nil_append] at hscan
    simp [scan, isBlank, scanSolid, hscan, textOfUnits_of_broken hunits.lt hbroken]

/-! ## Numbers -/

/-- The text does not go on with a character of this kind. -/
def Ends (p : Char → Bool) (rest : List Char) : Prop := ∀ c ∈ rest.head?, p c = false

theorem ends_nil (p : Char → Bool) : Ends p [] := by
  intro c hc
  cases hc

theorem ends_cons {p : Char → Bool} {c : Char} (hc : p c = false) (rest : List Char) :
    Ends p (c :: rest) := by
  intro d hd
  cases hd
  exact hc

/-- Characters of a kind are told from a text that does not go on with one. -/
theorem takeWhile_append_ends {p : Char → Bool} {cs rest : List Char} (hcs : ∀ c ∈ cs, p c = true)
    (hrest : Ends p rest) :
    (cs ++ rest).takeWhile p = cs ∧ (cs ++ rest).dropWhile p = rest := by
  have hnone : rest.takeWhile p = [] ∧ rest.dropWhile p = rest := by
    cases rest with
    | nil => exact ⟨rfl, rfl⟩
    | cons c rest => simp [hrest c rfl]
  rw [List.takeWhile_append_of_pos hcs, List.dropWhile_append_of_pos hcs, hnone.1, hnone.2,
    List.append_nil]
  exact ⟨rfl, rfl⟩

variable {ds fraction exponent cs rest : List Char} {n : Option Int}

theorem Digits.isDigits_eq (h : Digits ds) : isDigits ds = true := by
  simpa [isDigits, h.1] using h.2

theorem Digits.ne_of_head (h : Digits ds) {c : Char} (hc : c.isDigit = false) (cs : List Char) :
    ds ≠ c :: cs := by
  rintro rfl
  rw [h.2 c List.mem_cons_self] at hc
  cases hc

theorem Whole.isWhole_eq (h : Whole ds) : isWhole ds = true := by
  by_cases hzero : ds = ['0']
  · rw [hzero]
    rfl
  · have hhead : ∀ tail, ds ≠ '0' :: tail := by
      rintro tail rfl
      exact hzero (h.2 rfl)
    rw [isWhole]
    · exact List.all_eq_true.2 h.1.2
    · exact h.1.1
    · exact hzero
    · exact hhead

theorem Exponent.ends (h : Exponent exponent) : Ends Char.isDigit exponent := by
  cases h with
  | nothing => exact ends_nil _
  | mark hmark => rcases hmark with rfl | rfl <;> exact ends_cons (by decide) _

theorem Fraction.ends_append (h : Fraction fraction) (hexponent : Exponent exponent) :
    Ends Char.isDigit (fraction ++ exponent) := by
  cases h with
  | nothing => exact hexponent.ends
  | point => exact ends_cons (by decide) _

theorem isExponent_append {sign : List Char} (hsign : sign = [] ∨ sign = ['+'] ∨ sign = ['-'])
    (hds : Digits ds) : isExponent (sign ++ ds) = true := by
  rcases hsign with rfl | rfl | rfl
  · rw [List.nil_append, isExponent]
    · exact hds.isDigits_eq
    · exact fun tail => hds.ne_of_head (by decide) tail
    · exact fun tail => hds.ne_of_head (by decide) tail
  · exact hds.isDigits_eq
  · exact hds.isDigits_eq

theorem isTail_append (hfraction : Fraction fraction) (hexponent : Exponent exponent)
    (hsome : fraction ++ exponent ≠ []) : isTail (fraction ++ exponent) = true := by
  cases hfraction with
  | nothing =>
    cases hexponent with
    | nothing => exact absurd rfl hsome
    | mark hmark hsign hds =>
      rcases hmark with rfl | rfl <;> simp [isTail, isExponent_append hsign hds]
  | point hds =>
    obtain ⟨htake, hdrop⟩ := takeWhile_append_ends hds.2 hexponent.ends
    rw [List.cons_append, isTail, htake, hdrop, hds.isDigits_eq]
    cases hexponent with
    | nothing => rfl
    | mark hmark hsign hds => rcases hmark with rfl | rfl <;> simp [isExponent_append hsign hds]

theorem Whole.magnitude?_eq (h : Whole ds) :
    magnitude? ds = some (some (Nat.ofDigitChars 10 ds 0)) := by
  obtain ⟨htake, hdrop⟩ := takeWhile_append_ends h.1.2 (ends_nil _)
  rw [List.append_nil] at htake hdrop
  simp [magnitude?, htake, hdrop, h.isWhole_eq]

theorem Whole.magnitude?_append (h : Whole ds) (hfraction : Fraction fraction)
    (hexponent : Exponent exponent) (hsome : fraction ++ exponent ≠ []) :
    magnitude? (ds ++ (fraction ++ exponent)) = some none := by
  obtain ⟨htake, hdrop⟩ := takeWhile_append_ends h.1.2 (hfraction.ends_append hexponent)
  simp only [magnitude?, htake, hdrop, h.isWhole_eq, List.isEmpty_iff, hsome,
    isTail_append hfraction hexponent hsome]
  rfl

/-- Without a minus sign in front, the value of a number is its magnitude. -/
theorem numeral?_append (h : Digits ds) (tail : List Char) :
    numeral? (ds ++ tail) = (magnitude? (ds ++ tail)).map fun n => n.map Int.ofNat := by
  rw [numeral?]
  cases ds with
  | nil => exact absurd rfl h.1
  | cons d ds =>
    rintro cs hcs
    rw [List.cons_append] at hcs
    exact h.ne_of_head (c := '-') (by decide) ds (by rw [(List.cons.inj hcs).1])

theorem SpellsNumber.numeral?_eq (h : SpellsNumber cs n) : numeral? cs = some n := by
  cases h with
  | natural hds =>
    rw [← List.append_nil cs, numeral?_append hds.1, List.append_nil, hds.magnitude?_eq]
    rfl
  | negative hds hvalue =>
    simp [numeral?, hds.magnitude?_eq, hvalue, Int.negSucc_eq]
  | minusZero => rfl
  | real hsign hds hfraction hexponent hsome =>
    have hmagnitude := hds.magnitude?_append hfraction hexponent hsome
    rcases hsign with rfl | rfl
    · rw [List.nil_append, numeral?_append hds.1, hmagnitude]
      rfl
    · simp [numeral?, hmagnitude]

theorem Digits.isNumeral (h : Digits ds) : ∀ c ∈ ds, isNumeral c = true := by
  intro c hc
  simp [Json.isNumeral, h.2 c hc]

theorem Fraction.isNumeral (h : Fraction fraction) : ∀ c ∈ fraction, isNumeral c = true := by
  cases h with
  | nothing => exact List.forall_mem_nil _
  | point hds => exact List.forall_mem_cons.2 ⟨by decide, hds.isNumeral⟩

theorem Exponent.isNumeral (h : Exponent exponent) : ∀ c ∈ exponent, isNumeral c = true := by
  cases h with
  | nothing => exact List.forall_mem_nil _
  | mark hmark hsign hds =>
    refine List.forall_mem_cons.2 ⟨?_, List.forall_mem_append.2 ⟨?_, hds.isNumeral⟩⟩
    · rcases hmark with rfl | rfl <;> decide
    · rcases hsign with rfl | rfl | rfl
      · exact List.forall_mem_nil _
      · exact List.forall_mem_singleton.2 (by decide)
      · exact List.forall_mem_singleton.2 (by decide)

theorem SpellsNumber.isNumeral (h : SpellsNumber cs n) : ∀ c ∈ cs, isNumeral c = true := by
  cases h with
  | natural hds => exact hds.1.isNumeral
  | negative hds => exact List.forall_mem_cons.2 ⟨by decide, hds.1.isNumeral⟩
  | minusZero => exact List.forall_mem_cons.2 ⟨by decide, List.forall_mem_singleton.2 (by decide)⟩
  | real hsign hds hfraction hexponent =>
    refine List.forall_mem_append.2 ⟨?_, List.forall_mem_append.2 ⟨hds.1.isNumeral,
      List.forall_mem_append.2 ⟨hfraction.isNumeral, hexponent.isNumeral⟩⟩⟩
    rcases hsign with rfl | rfl
    · exact List.forall_mem_nil _
    · exact List.forall_mem_singleton.2 (by decide)

theorem SpellsNumber.ne_nil (h : SpellsNumber cs n) : cs ≠ [] := by
  cases h with
  | natural hds => exact hds.1.1
  | negative => exact List.cons_ne_nil _ _
  | minusZero => exact List.cons_ne_nil _ _
  | real hsign hds => simp [hds.1.1]

/-- A character of a number starts no other lexeme, and is no blank. -/
theorem scan_numeral {c : Char} (hc : isNumeral c = true) {cs : List Char} {n : Option Int}
    (hn : numeral? (c :: cs.takeWhile isNumeral) = some n) :
    scan (c :: cs) = .lexeme (.number n) (cs.dropWhile isNumeral) := by
  have hblank : isBlank c = false := by
    by_contra h
    simp only [isBlank, Bool.not_eq_false, Bool.or_eq_true, decide_eq_true_eq] at h
    rcases h with ((rfl | rfl) | rfl) | rfl <;> exact absurd hc (by decide)
  rw [scan, List.dropWhile_cons, hblank, if_neg Bool.false_ne_true]
  unfold scanSolid
  -- every case but the last one starts with a character that no number has
  split
  case h_12 => simp_all
  all_goals simp_all [isNumeral]

/-- A number is one lexeme, if no more of it seems to follow. -/
theorem scan_of_number (h : SpellsNumber cs n) (hrest : Ends isNumeral rest) :
    scan (cs ++ rest) = .lexeme (.number n) rest := by
  have hall := h.isNumeral
  have hnumeral := h.numeral?_eq
  cases cs with
  | nil => exact absurd rfl h.ne_nil
  | cons c cs =>
    obtain ⟨hc, hcs⟩ := List.forall_mem_cons.1 hall
    obtain ⟨htake, hdrop⟩ := takeWhile_append_ends hcs hrest
    rw [← htake] at hnumeral
    rw [List.cons_append, scan_numeral hc hnumeral, hdrop]

/-! ## Values -/

theorem Blank.isBlank_eq {c : Char} (h : Blank c) : isBlank c = true := by
  rcases h with rfl | rfl | rfl | rfl <;> decide

theorem Blank.isNumeral_eq {c : Char} (h : Blank c) : isNumeral c = false := by
  rcases h with rfl | rfl | rfl | rfl <;> decide

theorem Blank.scan_cons {c : Char} (h : Blank c) (cs : List Char) : scan (c :: cs) = scan cs := by
  rw [scan, scan, List.dropWhile_cons_of_pos h.isBlank_eq]

theorem scan_blanks {blanks : List Char} (h : ∀ c ∈ blanks, Blank c) (cs : List Char) :
    scan (blanks ++ cs) = scan cs := by
  rw [scan, scan, List.dropWhile_append_of_pos fun c hc => (h c hc).isBlank_eq]

/-- A string with blanks around it is one lexeme. -/
theorem Spells.exists_scan {cs rest : List Char} {j : Json} (h : Spells cs j rest) :
    ∀ t, j = .string t → ∃ rest', scan cs = .lexeme (.text t) rest' ∧ scan rest' = scan rest := by
  match h with
  | .string hstring =>
    rintro t ⟨⟩
    exact ⟨rest, scan_of_string hstring, rfl⟩
  | .before hc hvalue =>
    intro t hj
    obtain ⟨rest', hscan, hrest⟩ := hvalue.exists_scan t hj
    exact ⟨rest', by rw [hc.scan_cons, hscan], hrest⟩
  | .behind hc hvalue =>
    intro t hj
    obtain ⟨rest', hscan, hrest⟩ := hvalue.exists_scan t hj
    exact ⟨rest', hscan, by rw [hrest, hc.scan_cons]⟩
  | .null _ | .yes _ | .no _ | .number .. | .emptyArray .. | .array .. | .emptyObject ..
  | .object .. =>
    exact nofun

namespace Reader

theorem run_eq (r : Reader) (cs : List Char) :
    r.run cs = match scan cs with
      | .nothing => some r
      | .malformed => none
      | .lexeme l rest => (r.step l).bind fun r' => r'.run rest := by
  rw [run]
  split
  · rename_i h; rw [h]
  · rename_i h; rw [h]
  · rename_i l rest h
    simp only [h]
    cases r.step l <;> rfl

theorem run_lexeme {r r' : Reader} {cs rest : List Char} {l : Lexeme}
    (hscan : scan cs = .lexeme l rest) (hstep : r.step l = some r') :
    r.run cs = r'.run rest := by
  rw [run_eq, hscan]
  simp [hstep]

/-- A reader sees no more of a text than its lexemes. -/
theorem run_congr (r : Reader) {cs cs' : List Char} (h : scan cs = scan cs') :
    r.run cs = r.run cs' := by
  rw [run_eq, run_eq r cs', h]

/-- A reader in this mode takes a value next, unless an array ends here. -/
inductive Awaits : Mode → Prop where
  /-- A value has to come. -/
  | value : Awaits .value
  /-- The first item of an array may come. -/
  | firstItem : Awaits .firstItem

theorem Awaits.step {mode : Mode} (h : Awaits mode) (stack : List Frame) {l : Lexeme}
    (hl : l ≠ .closeArray) : step ⟨stack, mode⟩ l = startValue stack l := by
  cases h with
  | value => rfl
  | firstItem =>
    cases l with
    | closeArray => exact absurd rfl hl
    | _ => rfl

/-- A reader in this mode takes a name next, after these members. -/
inductive AwaitsName : Mode → List (Option String × Json) → Prop where
  /-- A name has to come. -/
  | name (members : List (Option String × Json)) : AwaitsName (.name members) members
  /-- The first name of an object may come. -/
  | firstName : AwaitsName .firstName []

/-- A name and its colon are read, and a value has to come. -/
theorem run_name {cs cs' : List Char} {t : Option String} (h : Spells cs (.string t) (':' :: cs'))
    (stack : List Frame) {mode : Mode} {seen : List (Option String × Json)}
    (hmode : AwaitsName mode seen) :
    run ⟨stack, mode⟩ cs = run ⟨.object seen t :: stack, .value⟩ cs' := by
  obtain ⟨rest, hscan, hrest⟩ := h.exists_scan t rfl
  have hstep : step ⟨stack, mode⟩ (.text t) = some ⟨stack, .colon seen t⟩ := by
    cases hmode <;> rfl
  rw [run_lexeme hscan hstep, run_congr _ hrest]
  exact run_lexeme rfl rfl

mutual

/-- A value is read. -/
theorem run_of_spells {cs rest : List Char} {j : Json} (h : Spells cs j rest) :
    ∀ (stack : List Frame) {mode : Mode}, Awaits mode → Ends isNumeral rest →
      run ⟨stack, mode⟩ cs = run ⟨stack, .finished j⟩ rest := by
  match h with
  | .null _ => exact fun stack _ hmode _ => run_lexeme rfl (hmode.step stack nofun)
  | .yes _ => exact fun stack _ hmode _ => run_lexeme rfl (hmode.step stack nofun)
  | .no _ => exact fun stack _ hmode _ => run_lexeme rfl (hmode.step stack nofun)
  | .number hnumber _ =>
    intro stack mode hmode hrest
    exact run_lexeme (scan_of_number hnumber hrest) (hmode.step stack nofun)
  | .string hstring =>
    intro stack mode hmode _
    exact run_lexeme (scan_of_string hstring) (hmode.step stack nofun)
  | .emptyArray hblanks _ =>
    intro stack mode hmode _
    refine (run_lexeme (l := .openArray) rfl (hmode.step stack nofun)).trans ?_
    rw [run_congr _ (scan_blanks hblanks _)]
    exact run_lexeme rfl rfl
  | .array hitems =>
    intro stack mode hmode _
    refine (run_lexeme (l := .openArray) rfl (hmode.step stack nofun)).trans ?_
    exact run_of_items hitems stack [] .firstItem
  | .emptyObject hblanks _ =>
    intro stack mode hmode _
    refine (run_lexeme (l := .openObject) rfl (hmode.step stack nofun)).trans ?_
    rw [run_congr _ (scan_blanks hblanks _)]
    exact run_lexeme rfl rfl
  | .object hmembers =>
    intro stack mode hmode _
    refine (run_lexeme (l := .openObject) rfl (hmode.step stack nofun)).trans ?_
    exact run_of_members hmembers stack .firstName
  | .before hc hvalue =>
    intro stack mode hmode hrest
    rw [run_congr _ (hc.scan_cons _)]
    exact run_of_spells hvalue stack hmode hrest
  | .behind hc hvalue =>
    intro stack mode hmode _
    rw [run_of_spells hvalue stack hmode (ends_cons hc.isNumeral_eq rest)]
    exact run_congr _ (hc.scan_cons rest)

/-- The items of an array are read, after those that have been, and the array is finished. -/
theorem run_of_items {cs rest : List Char} {items : List Json} (h : SpellsItems cs items rest) :
    ∀ (stack : List Frame) (seen : List Json) {mode : Mode}, Awaits mode →
      run ⟨.array seen :: stack, mode⟩ cs =
        run ⟨stack, .finished (.array (seen.reverse ++ items))⟩ rest := by
  match h with
  | .last hvalue =>
    intro stack seen mode hmode
    rw [run_of_spells hvalue (.array seen :: stack) hmode (ends_cons (by decide) _),
      ← List.reverse_cons]
    exact run_lexeme rfl rfl
  | .cons hvalue hothers =>
    intro stack seen mode hmode
    rw [run_of_spells hvalue (.array seen :: stack) hmode (ends_cons (by decide) _)]
    refine (run_lexeme (l := .comma) rfl rfl).trans ?_
    rw [run_of_items hothers stack _ .value, List.reverse_cons, List.append_assoc]
    rfl

/-- The members of an object are read, after those that have been, and the object is
finished. -/
theorem run_of_members {cs rest : List Char} {members : List (Option String × Json)}
    (h : SpellsMembers cs members rest) :
    ∀ (stack : List Frame) {mode : Mode} {seen : List (Option String × Json)},
      AwaitsName mode seen →
      run ⟨stack, mode⟩ cs =
        run ⟨stack, .finished (.object (seen.reverse ++ members))⟩ rest := by
  match h with
  | .last hname hvalue =>
    intro stack mode seen hmode
    rw [run_name hname stack hmode, run_of_spells hvalue _ .value (ends_cons (by decide) _),
      ← List.reverse_cons]
    exact run_lexeme rfl rfl
  | .cons hname hvalue hothers =>
    intro stack mode seen hmode
    rw [run_name hname stack hmode, run_of_spells hvalue _ .value (ends_cons (by decide) _)]
    refine (run_lexeme (l := .comma) rfl rfl).trans ?_
    rw [run_of_members hothers stack (.name _), List.reverse_cons, List.append_assoc]
    rfl

end

end Reader

/-- A JSON text is read as what it denotes. -/
theorem parse?_of_denotes {text : String} {j : Json} (h : Denotes text j) :
    parse? text = some j := by
  have hrun := Reader.run_of_spells h [] .value (ends_nil _)
  have hend : Reader.run ⟨[], .finished j⟩ [] = some ⟨[], .finished j⟩ := by
    rw [Reader.run_eq]
    rfl
  rw [parse?, Reader.start, hrun, hend]
  rfl

end Json

end TapeFlow
