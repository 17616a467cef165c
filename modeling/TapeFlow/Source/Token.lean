import TapeFlow.Command

/-!
# Tokens and the scanner

A token is a command together with the offset of its byte.  A scanner walks
over a source once, left to right; it can be stopped after any number of tokens
and resumed, and the tokens it yields keep the offsets they have in the whole
source.

* `Scanner.next` yields one token and the scanner after it;
* `Scanner.tokens` is everything a scanner still yields;
* `Scanner.next_spec` ties the two together: the next token is the first of the
  tokens of a scanner, and the scanner after it has the others.
-/

namespace TapeFlow

/-- A program as it is stored: a string of bytes. -/
abbrev Source := List UInt8

/-- One command of a source and where it stands. -/
structure Token where
  /-- The command. -/
  command : Command
  /-- The offset of its byte, counted from zero. -/
  offset : Nat
  deriving DecidableEq

/-- A position in a source: the number of bytes passed and the bytes to come. -/
structure Scanner where
  /-- The number of bytes already passed. -/
  offset : Nat
  /-- The bytes not yet looked at. -/
  rest : Source
  deriving DecidableEq

namespace Scanner

/-- The scanner at the start of a source. -/
def ofSource (source : Source) : Scanner := ⟨0, source⟩

/-- The length of the whole source, wherever in it the scanner stands. -/
def sourceLength (s : Scanner) : Nat := s.offset + s.rest.length

/-- The most tokens the scanner can still yield: one for each byte to come. -/
def atMost (s : Scanner) : Nat := s.rest.length

/-- Skip comments from `offset` on and yield the first token, if there is one. -/
def nextFrom (offset : Nat) : Source → Option Token × Scanner
  | [] => (none, ⟨offset, []⟩)
  | b :: bs =>
    match Command.ofByte? b with
    | some c => (some ⟨c, offset⟩, ⟨offset + 1, bs⟩)
    | none => nextFrom (offset + 1) bs

/-- Yield the next token and move past it; without one, move to the end. -/
def next (s : Scanner) : Option Token × Scanner := nextFrom s.offset s.rest

/-- All the tokens the scanner still yields, in order. -/
def tokens (s : Scanner) : List Token :=
  (s.rest.zipIdx s.offset).filterMap fun (b, i) => (Command.ofByte? b).map fun c => ⟨c, i⟩

/-- Take up to `n` tokens off the scanner and drop them. -/
def skip : Nat → Scanner → Scanner
  | 0, s => s
  | n + 1, s => skip n s.next.2

@[simp] theorem tokens_nil (offset : Nat) : (⟨offset, []⟩ : Scanner).tokens = [] := rfl

theorem tokens_command {b : UInt8} {c : Command} (h : Command.ofByte? b = some c)
    (offset : Nat) (bs : Source) :
    (⟨offset, b :: bs⟩ : Scanner).tokens = ⟨c, offset⟩ :: (⟨offset + 1, bs⟩ : Scanner).tokens := by
  simp [tokens, List.zipIdx_cons, h]

theorem tokens_comment {b : UInt8} (h : Command.ofByte? b = none) (offset : Nat) (bs : Source) :
    (⟨offset, b :: bs⟩ : Scanner).tokens = (⟨offset + 1, bs⟩ : Scanner).tokens := by
  simp [tokens, List.zipIdx_cons, h]

/-- The next token is the first of those to come, and after it come the others. -/
theorem next_spec (s : Scanner) :
    s.next.1 = s.tokens.head? ∧ s.next.2.tokens = s.tokens.tail := by
  obtain ⟨offset, rest⟩ := s
  unfold next
  induction rest generalizing offset with
  | nil => exact ⟨rfl, rfl⟩
  | cons b bs ih =>
    cases h : Command.ofByte? b with
    | some c => simp [tokens_command h, nextFrom, h]
    | none => simpa [tokens_comment h, nextFrom, h] using ih (offset + 1)

end Scanner

end TapeFlow
