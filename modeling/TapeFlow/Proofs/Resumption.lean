import TapeFlow.Proofs.EventLog

/-!
# Going on with a scanner

A scanner can be handed on after some of its tokens have been taken.  What is made of the
rest is what would be made of a source in which the commands already taken had been comments:
the bytes that were passed still count, so that nothing is reported at another offset.

* `Scanner.tokens_skip` — the tokens of a scanner after some were taken; `Scanner.next_skip` —
  they are what it yields, one call after the other.
* `Scanner.Over` — a scanner stands somewhere in a source; `Scanner.Over.skip`.
* `Source.blank` — a source without its first commands; `Scanner.tokens_blank` — what is left
  of its tokens.
* `Scanner.Resumed` — what is known of a scanner after some tokens were taken.
* `lower_resumed` — lowering the rest of a source and lowering the source without its first
  commands are the same.
-/

namespace TapeFlow

namespace Scanner

/-! ## Tokens that have been taken -/

theorem tokens_skip (k : Nat) (s : Scanner) : (s.skip k).tokens = s.tokens.drop k := by
  induction k generalizing s with
  | zero => rfl
  | succ k ih => rw [skip, ih, (next_spec s).2, List.drop_tail]

/-- The tokens of a scanner are what it yields, one call after the other; after the last one
it yields nothing, however often it is asked. -/
theorem next_skip (n : Nat) (s : Scanner) : (s.skip n).next.1 = s.tokens[n]? := by
  rw [(next_spec _).1, tokens_skip, List.head?_drop]

/-! ## Where a scanner stands -/

/-- The scanner stands somewhere in the source, or at its end. -/
structure Over (source : Source) (s : Scanner) : Prop where
  /-- It has not passed the end. -/
  inside : s.offset ≤ source.length
  /-- What it has not looked at is the rest of the source. -/
  rest : s.rest = source.drop s.offset

theorem over_ofSource (source : Source) : Over source (ofSource source) := ⟨Nat.zero_le _, rfl⟩

theorem Over.next {source : Source} {s : Scanner} (h : Over source s) : Over source s.next.2 := by
  obtain ⟨offset, rest⟩ := s
  unfold Scanner.next
  induction rest generalizing offset with
  | nil => exact h
  | cons b bs ih =>
    obtain ⟨hinside, hrest⟩ := h
    have hlt : offset < source.length := by
      by_contra hge
      rw [List.drop_eq_nil_of_le (Nat.le_of_not_lt hge)] at hrest
      cases hrest
    have hafter : Over source ⟨offset + 1, bs⟩ := by
      refine ⟨hlt, ?_⟩
      rw [List.drop_eq_getElem_cons hlt] at hrest
      exact (List.cons.inj hrest).2
    cases hb : Command.ofByte? b with
    | some c => simpa only [nextFrom, hb] using hafter
    | none => simpa only [nextFrom, hb] using ih (offset + 1) hafter

theorem Over.skip {source : Source} {s : Scanner} (h : Over source s) (k : Nat) :
    Over source (s.skip k) := by
  induction k generalizing s with
  | zero => exact h
  | succ k ih => exact ih h.next

/-- The bytes still to come are those of the source without those passed. -/
theorem Over.atMost_eq {source : Source} {s : Scanner} (h : Over source s) :
    s.atMost = source.length - s.offset := by
  rw [atMost, h.rest, List.length_drop]

theorem Over.sourceLength_eq {source : Source} {s : Scanner} (h : Over source s) :
    s.sourceLength = source.length := by
  have hbytes := h.atMost_eq
  have hinside := h.inside
  unfold atMost at hbytes
  unfold sourceLength
  omega

/-! ## Which tokens these are -/

theorem length_tokens_le (s : Scanner) : s.tokens.length ≤ s.atMost := by
  rw [tokens, atMost]
  calc _ ≤ (s.rest.zipIdx s.offset).length := List.length_filterMap_le _ _
    _ = s.rest.length := List.length_zipIdx

/-- Offsets grow from token to token. -/
theorem pairwise_offset (s : Scanner) : (s.tokens.map Token.offset).Pairwise (· < ·) := by
  obtain ⟨offset, rest⟩ := s
  induction rest generalizing offset with
  | nil => exact .nil
  | cons b bs ih =>
    cases hb : Command.ofByte? b with
    | some c =>
      rw [tokens_command hb, List.map_cons, List.pairwise_cons]
      refine ⟨?_, ih (offset + 1)⟩
      intro i hi
      obtain ⟨t, ht, rfl⟩ := List.mem_map.1 hi
      obtain ⟨pre, post, hsplit⟩ := List.append_of_mem ht
      obtain ⟨k, hk, -⟩ := exists_of_tokens hsplit
      show offset < t.offset
      omega
    | none =>
      rw [tokens_comment hb]
      exact ih (offset + 1)

/-- The tokens after the first `k` are the commands with at least `k` commands in front of
them. -/
theorem mem_tokens_drop {source : Source} {k : Nat} {t : Token} :
    t ∈ (ofSource source).tokens.drop k ↔
      source[t.offset]? = some t.command.toByte ∧
        k ≤ (Source.commands (source.take t.offset)).length := by
  constructor
  · intro ht
    obtain ⟨j, hj⟩ := List.getElem?_of_mem ht
    rw [List.getElem?_drop] at hj
    obtain ⟨hlt, hget⟩ := List.getElem?_eq_some_iff.1 hj
    have hsplit : (ofSource source).tokens = (ofSource source).tokens.take (k + j) ++
        t :: (ofSource source).tokens.drop (k + j + 1) := by
      rw [← hget, ← List.drop_eq_getElem_cons hlt, List.take_append_drop]
    obtain ⟨hbyte, hbefore⟩ := getElem?_of_tokens hsplit
    refine ⟨hbyte, ?_⟩
    rw [hbefore, List.length_map, List.length_take]
    omega
  · rintro ⟨hbyte, hk⟩
    have hlength : (ofSource (source.take t.offset)).tokens.length =
        (Source.commands (source.take t.offset)).length := by
      rw [← commands_ofSource, commands, List.length_map]
    rw [tokens_split hbyte, List.drop_append_of_le_length (by omega)]
    exact List.mem_append_right _ List.mem_cons_self

end Scanner

/-! ## Commands that have been blanked -/

/-- Put a byte in the place of each of the first `k` commands, or of all if there are fewer. -/
def Source.blank (filler : UInt8) : Nat → Source → Source
  | 0, source => source
  | _ + 1, [] => []
  | k + 1, b :: bs =>
    match Command.ofByte? b with
    | some _ => filler :: blank filler k bs
    | none => b :: blank filler (k + 1) bs

theorem Source.length_blank (filler : UInt8) (k : Nat) (source : Source) :
    (source.blank filler k).length = source.length := by
  fun_induction Source.blank filler k source with
  | case1 source => rfl
  | case2 k => rfl
  | case3 k b bs c hb ih => rw [List.length_cons, List.length_cons, ih]
  | case4 k b bs hb ih => rw [List.length_cons, List.length_cons, ih]

/-- Commands that a comment has taken the place of are no longer among the tokens, and the
others stay where they were. -/
theorem Scanner.tokens_blank {filler : UInt8} (hfiller : Command.ofByte? filler = none)
    (k : Nat) (source : Source) (offset : Nat) :
    (⟨offset, source.blank filler k⟩ : Scanner).tokens =
      (⟨offset, source⟩ : Scanner).tokens.drop k := by
  fun_induction Source.blank filler k source generalizing offset with
  | case1 source => rfl
  | case2 k => rfl
  | case3 k b bs c hb ih =>
    rw [tokens_comment hfiller, tokens_command hb, List.drop_succ_cons, ih]
  | case4 k b bs hb ih => rw [tokens_comment hb, tokens_comment hb, ih]

/-! ## Lowering the rest of a source -/

/-- Lowering looks at nothing but the tokens to come and the length of the whole source. -/
theorem lower_congr (options : Options) {s s' : Scanner} (htokens : s.tokens = s'.tokens)
    (hlength : s.sourceLength = s'.sourceLength) : lower options s = lower options s' := by
  simp only [lower, Lower.program, htokens, hlength]

/-- A scanner of which `k` tokens were taken: it stands in the source, and what it still yields
are the commands with `k` others before them. -/
structure Scanner.Resumed (source : Source) (k : Nat) (s : Scanner) : Prop where
  /-- No more bytes were passed than there are. -/
  inside : s.offset ≤ source.length
  /-- The bytes to come are the others. -/
  atMost_eq : s.atMost = source.length - s.offset
  /-- Its tokens are what it yields, one call after the other. -/
  yields : ∀ n, (s.skip n).next.1 = s.tokens[n]?
  /-- A token is a command of the source at its offset, with `k` commands before it. -/
  mem_tokens : ∀ t, t ∈ s.tokens ↔ source[t.offset]? = some t.command.toByte ∧
    k ≤ (Source.commands (source.take t.offset)).length
  /-- The tokens come in the order of the source. -/
  increasing : (s.tokens.map Token.offset).Pairwise (· < ·)
  /-- There are at least as many bytes to come as tokens. -/
  length_le : s.tokens.length ≤ s.atMost

theorem Scanner.resumed_skip (source : Source) (k : Nat) :
    Resumed source k ((ofSource source).skip k) where
  inside := ((over_ofSource source).skip k).inside
  atMost_eq := ((over_ofSource source).skip k).atMost_eq
  yields := fun n => next_skip n _
  mem_tokens := by
    intro t
    rw [tokens_skip]
    exact mem_tokens_drop
  increasing := pairwise_offset _
  length_le := length_tokens_le _

/-- Handing on a scanner after `k` tokens is the same as starting over with comments in the
place of the first `k` commands, whatever is made of it: the module and the tally, the error and
where it is reported, and the events on the way. -/
theorem lower_resumed (options : Options) (source : Source) (k : Nat) {filler : UInt8}
    (hfiller : Command.ofByte? filler = none) :
    lower options ((Scanner.ofSource source).skip k) =
        lower options (.ofSource (source.blank filler k)) ∧
      Scanner.Resumed source k ((Scanner.ofSource source).skip k) := by
  refine ⟨lower_congr options ?_ ?_, Scanner.resumed_skip source k⟩
  · calc ((Scanner.ofSource source).skip k).tokens
        = (Scanner.ofSource source).tokens.drop k := Scanner.tokens_skip k _
      _ = (Scanner.ofSource (source.blank filler k)).tokens :=
          (Scanner.tokens_blank hfiller k source 0).symm
  · calc ((Scanner.ofSource source).skip k).sourceLength
        = source.length := ((Scanner.over_ofSource source).skip k).sourceLength_eq
      _ = (source.blank filler k).length := (Source.length_blank filler k source).symm
      _ = (Scanner.ofSource (source.blank filler k)).sourceLength := (Nat.zero_add _).symm

/-- A scanner handed on inside two loops: the first bracket that closes one of them is reported,
at its own offset. -/
theorem lower_resumed_inside_loops :
    let source : Source := [91, 33, 91, 43, 93, 93]
    Command.ofByte? 35 = none ∧ source.blank 35 2 = [35, 33, 35, 43, 93, 93] ∧
      Scanner.Resumed source 2 ((Scanner.ofSource source).skip 2) ∧
      (lower {} ((Scanner.ofSource source).skip 2)).1 = .error (.unexpectedClose 4) := by
  intro source
  have hfiller : Command.ofByte? 35 = none := by decide
  obtain ⟨hlower, hresumed⟩ := lower_resumed {} source 2 hfiller
  have hcells : ({} : Options).cellCount.toNat < 2 ^ 63 := by decide
  have hsmall : (source.blank 35 2).commands.length < 2 ^ 29 := by decide
  have hstray : (source.blank 35 2).Overclosed 5 := by decide
  obtain ⟨p, hp, herror⟩ := lower_of_overclosed hcells hsmall hstray
  have hlt : p < 5 := Nat.lt_of_not_le fun hle => hp.first 5 hle hstray
  have heq : p = 4 :=
    (by decide : ∀ i < 5, (source.blank 35 2).Overclosed (i + 1) → i = 4) p hlt hp.overclosed
  refine ⟨hfiller, by decide, hresumed, ?_⟩
  rw [hlower, herror, heq]

end TapeFlow
