import TapeFlow.Json.Value

/-!
# The lexemes of JSON

A JSON text is cut into lexemes, with blanks between them left out.  The rules
are strict: four blank characters, no leading zeros, no control characters in
strings, and only the escapes of the standard.

* `Json.scan` takes the first lexeme off a text;
* `Json.scan_shorter` says that it then leaves less than there was.
-/

namespace TapeFlow

namespace Json

/-- A unit of a JSON text. -/
inductive Lexeme where
  /-- An opening square bracket. -/
  | openArray
  /-- A closing square bracket. -/
  | closeArray
  /-- An opening brace. -/
  | openObject
  /-- A closing brace. -/
  | closeObject
  /-- A comma. -/
  | comma
  /-- A colon. -/
  | colon
  /-- A string, as in `Json.string`. -/
  | text (t : Option String)
  /-- A number, as in `Json.number`. -/
  | number (n : Option Int)
  /-- The word for null. -/
  | null
  /-- The word for a truth value. -/
  | bool (b : Bool)

/-- What stands at the start of a text. -/
inductive Scan where
  /-- Nothing but blanks. -/
  | nothing
  /-- No lexeme. -/
  | malformed
  /-- A lexeme, with what comes after it. -/
  | lexeme (l : Lexeme) (rest : List Char)

/-- The blank characters. -/
def isBlank (c : Char) : Bool := c = ' ' || c = '\t' || c = '\n' || c = '\r'

/-! ## Strings -/

/-- The value of a hexadecimal digit. -/
def hexDigit? (c : Char) : Option Nat :=
  if '0' ≤ c ∧ c ≤ '9' then some (c.toNat - '0'.toNat)
  else if 'a' ≤ c ∧ c ≤ 'f' then some (c.toNat - 'a'.toNat + 10)
  else if 'A' ≤ c ∧ c ≤ 'F' then some (c.toNat - 'A'.toNat + 10)
  else none

/-- The code unit that four hexadecimal digits name. -/
def codeUnit? (a b c d : Char) : Option Nat := do
  let a ← hexDigit? a
  let b ← hexDigit? b
  let c ← hexDigit? c
  let d ← hexDigit? d
  return ((a * 16 + b) * 16 + c) * 16 + d

/-- The first half of a surrogate pair. -/
def isHighSurrogate (n : Nat) : Bool := 0xd800 ≤ n && n < 0xdc00

/-- The second half of a surrogate pair. -/
def isLowSurrogate (n : Nat) : Bool := 0xdc00 ≤ n && n < 0xe000

/-- The character that a surrogate pair names. -/
def ofSurrogates (high low : Nat) : Char :=
  Char.ofNat ((high - 0xd800) * 0x400 + (low - 0xdc00) + 0x10000)

/-- The character that a backslash and one more character name. -/
def escaped? : Char → Option Char
  | '"' => some '"'
  | '\\' => some '\\'
  | '/' => some '/'
  | 'b' => some '\x08'
  | 'f' => some '\x0c'
  | 'n' => some '\n'
  | 'r' => some '\r'
  | 't' => some '\t'
  | _ => none

/-- Read a string whose opening quote has been read, as code points and, where
escapes name them, halves of surrogate pairs.  Those so far are in `seen`, the
last first. -/
def scanUnits (seen : List Nat) : List Char → Option (List Nat × List Char)
  | [] => none
  | '"' :: rest => some (seen.reverse, rest)
  | '\\' :: 'u' :: a :: b :: c :: d :: rest =>
    match codeUnit? a b c d with
    | some unit => scanUnits (unit :: seen) rest
    | none => none
  | '\\' :: c :: rest =>
    match escaped? c with
    | some e => scanUnits (e.toNat :: seen) rest
    | none => none
  | c :: rest => if c.toNat < 0x20 then none else scanUnits (c.toNat :: seen) rest

/-- Put surrogate pairs together; `none` if half a pair stands alone.  The
characters so far are in `seen`, the last first. -/
def joinUnits (seen : List Char) : List Nat → Option (List Char)
  | [] => some seen.reverse
  | [unit] =>
    if isHighSurrogate unit || isLowSurrogate unit then none
    else some (Char.ofNat unit :: seen).reverse
  | unit :: next :: rest =>
    if isHighSurrogate unit then
      if isLowSurrogate next then joinUnits (ofSurrogates unit next :: seen) rest else none
    else if isLowSurrogate unit then none
    else joinUnits (Char.ofNat unit :: seen) (next :: rest)

/-- The text that code points and surrogates stand for. -/
def textOfUnits (units : List Nat) : Option String := (joinUnits [] units).map String.ofList

/-! ## Numbers -/

/-- The characters that a number is made of. -/
def isNumeral (c : Char) : Bool :=
  c.isDigit || c = '-' || c = '+' || c = '.' || c = 'e' || c = 'E'

/-- The whole part of a number: digits without a needless zero in front. -/
def isWhole : List Char → Bool
  | [] => false
  | ['0'] => true
  | '0' :: _ => false
  | ds => ds.all Char.isDigit

/-- At least one digit and nothing else. -/
def isDigits (ds : List Char) : Bool := !ds.isEmpty && ds.all Char.isDigit

/-- The rest of a number after an exponent mark. -/
def isExponent : List Char → Bool
  | '+' :: ds => isDigits ds
  | '-' :: ds => isDigits ds
  | ds => isDigits ds

/-- The rest of a number after its whole part, if there is a rest. -/
def isTail : List Char → Bool
  | '.' :: cs =>
    isDigits (cs.takeWhile Char.isDigit) &&
      match cs.dropWhile Char.isDigit with
      | [] => true
      | c :: cs => (c = 'e' || c = 'E') && isExponent cs
  | c :: cs => (c = 'e' || c = 'E') && isExponent cs
  | [] => false

/-- The value of a number without its sign: whether it is one, and which
integer it is if it is written as an integer. -/
def magnitude? (cs : List Char) : Option (Option Nat) :=
  let whole := cs.takeWhile Char.isDigit
  let tail := cs.dropWhile Char.isDigit
  if !isWhole whole then none
  else if tail.isEmpty then some (some (Nat.ofDigitChars 10 whole 0))
  else if isTail tail then some none
  else none

/-- The value of a number.  Minus zero is no integer. -/
def numeral? : List Char → Option (Option Int)
  | '-' :: cs =>
    match magnitude? cs with
    | some (some 0) => some none
    | some (some (n + 1)) => some (some (.negSucc n))
    | some none => some none
    | none => none
  | cs => (magnitude? cs).map fun n => n.map Int.ofNat

/-! ## All lexemes -/

/-- The first lexeme of a text that does not start with a blank. -/
def scanSolid : List Char → Scan
  | [] => .nothing
  | '[' :: rest => .lexeme .openArray rest
  | ']' :: rest => .lexeme .closeArray rest
  | '\x7b' :: rest => .lexeme .openObject rest
  | '\x7d' :: rest => .lexeme .closeObject rest
  | ',' :: rest => .lexeme .comma rest
  | ':' :: rest => .lexeme .colon rest
  | '"' :: rest =>
    match scanUnits [] rest with
    | some (units, rest) => .lexeme (.text (textOfUnits units)) rest
    | none => .malformed
  | 'n' :: 'u' :: 'l' :: 'l' :: rest => .lexeme .null rest
  | 't' :: 'r' :: 'u' :: 'e' :: rest => .lexeme (.bool true) rest
  | 'f' :: 'a' :: 'l' :: 's' :: 'e' :: rest => .lexeme (.bool false) rest
  | c :: cs =>
    if isNumeral c then
      match numeral? (c :: cs.takeWhile isNumeral) with
      | some n => .lexeme (.number n) (cs.dropWhile isNumeral)
      | none => .malformed
    else
      .malformed

/-- The first lexeme of a text. -/
def scan (cs : List Char) : Scan := scanSolid (cs.dropWhile isBlank)

theorem scanUnits_shorter {seen units : List Nat} {cs rest : List Char}
    (h : scanUnits seen cs = some (units, rest)) : rest.length < cs.length := by
  fun_induction scanUnits seen cs with
  | case1 => cases h
  | case2 seen rest' => cases h; simp
  | case3 seen a b c d rest' unit hu ih => have := ih h; simp only [List.length_cons]; omega
  | case4 => cases h
  | case5 seen c rest' hne e he ih => have := ih h; simp only [List.length_cons]; omega
  | case6 => cases h
  | case7 => cases h
  | case8 seen c rest' h1 h2 h3 h4 ih => have := ih h; simp only [List.length_cons]; omega

theorem scanSolid_shorter {cs rest : List Char} {l : Lexeme}
    (h : scanSolid cs = .lexeme l rest) : rest.length < cs.length := by
  fun_cases scanSolid cs <;> simp_all [scanSolid]
  case case8 scanned => have := scanUnits_shorter scanned; omega
  case case13 =>
    have := (List.dropWhile_suffix isNumeral (l := ‹List Char›)).length_le
    rw [← h.2]; omega
  all_goals omega

/-- A lexeme takes up at least one character. -/
theorem scan_shorter {cs rest : List Char} {l : Lexeme} (h : scan cs = .lexeme l rest) :
    rest.length < cs.length :=
  Nat.lt_of_lt_of_le (scanSolid_shorter h) (List.dropWhile_suffix isBlank).length_le

end Json

end TapeFlow
