import TapeFlow.Proofs.WellFormed

/-!
# The rules of a module

`Function.WellFormed` follows the checker, block after block and with its tables.
Here the rules are stated without either: for a function as a whole, by the places
of its instructions, and for a call by the declarations as they stand.

* `Function.instructionAt?` — the instruction at a place; `Function.Defines` — some
  place defines the register.
* `Module.LastDeclaration` — the declaration of a symbol that counts.
* `Function.Lawful` — the rules.
* `Function.nodup_definitions_iff` — a list of definitions without repetitions is one
  in which no two places define the same register.
* `Module.check_valid_iff_lawful` — the checker accepts a module exactly if all its
  functions obey the rules.
-/

namespace TapeFlow

/-- The declaration is one of the symbol, and none of it comes later. -/
def Module.LastDeclaration (m : Module) (symbol : String) (d : Declaration) : Prop :=
  ∃ before after, m.declarations = before ++ d :: after ∧ d.name = symbol ∧
    ∀ later ∈ after, later.name ≠ symbol

namespace Function

/-- The instruction at a position in the block at a position. -/
def instructionAt? (f : Function) (c k : Nat) : Option Instruction :=
  f.blocks[c]?.bind fun b => b.instructions[k]?

/-- Some instruction of the function, wherever it stands, defines the register. -/
def Defines (f : Function) (r : Reg) : Prop :=
  ∃ c k i, f.instructionAt? c k = some i ∧ i.defined? = some r

/-- The rules for a function of a module. -/
structure Lawful (f : Function) (m : Module) : Prop where
  /-- It starts at one of its blocks. -/
  entry : f.entry.toNat < f.blocks.size
  /-- Each block carries the number of its position. -/
  numbered : ∀ (c : Nat) (b : Block), f.blocks[c]? = some b → b.id.toNat = c
  /-- Each block has a terminator. -/
  ended : ∀ b ∈ f.blocks, b.terminator ≠ none
  /-- Each terminator leads to blocks of the function only. -/
  targets : ∀ b ∈ f.blocks, ∀ t, b.terminator = some t → ∀ id ∈ t.successors,
    id.toNat < f.blocks.size
  /-- What is called is declared, and the last declaration has as many parameters as
  the call has arguments. -/
  calls : ∀ c k dst symbol args, f.instructionAt? c k = some (.call dst symbol args) →
    ∃ d, m.LastDeclaration symbol d ∧ d.params.length = args.length
  /-- No two instructions define the same register. -/
  single : ∀ c k i c' k' i' r, f.instructionAt? c k = some i → f.instructionAt? c' k' = some i' →
    i.defined? = some r → i'.defined? = some r → c = c' ∧ k = k'
  /-- What an instruction reads is defined in the function. -/
  reads : ∀ c k i, f.instructionAt? c k = some i → ∀ r ∈ i.used, f.Defines r
  /-- So is what a terminator reads. -/
  endReads : ∀ b ∈ f.blocks, ∀ t, b.terminator = some t → ∀ r ∈ t.used, f.Defines r

variable {f : Function} {m : Module}

/-! ## Places -/

theorem instructionAt?_eq_some_iff {c k : Nat} {i : Instruction} :
    f.instructionAt? c k = some i ↔
      ∃ b, f.blocks[c]? = some b ∧ b.instructions[k]? = some i := by
  unfold instructionAt?
  exact Option.bind_eq_some_iff

/-- The instructions of a function are those at its places. -/
theorem mem_instructions_iff {i : Instruction} :
    i ∈ f.instructions ↔ ∃ c k, f.instructionAt? c k = some i := by
  unfold instructions
  rw [List.mem_flatMap]
  constructor
  · rintro ⟨b, hb, hi⟩
    obtain ⟨c, hc⟩ := List.getElem?_of_mem hb
    obtain ⟨k, hk⟩ := List.getElem?_of_mem hi
    rw [Array.getElem?_toList] at hc hk
    exact ⟨c, k, instructionAt?_eq_some_iff.2 ⟨b, hc, hk⟩⟩
  · rintro ⟨c, k, h⟩
    obtain ⟨b, hb, hi⟩ := instructionAt?_eq_some_iff.1 h
    exact ⟨b, Array.mem_toList_iff.2 (Array.mem_of_getElem? hb),
      Array.mem_toList_iff.2 (Array.mem_of_getElem? hi)⟩

theorem mem_definitions_iff {r : Reg} : r ∈ f.definitions ↔ f.Defines r := by
  unfold definitions Defines
  rw [List.mem_filterMap]
  constructor
  · rintro ⟨i, hi, hr⟩
    obtain ⟨c, k, hplace⟩ := mem_instructions_iff.1 hi
    exact ⟨c, k, i, hplace, hr⟩
  · rintro ⟨c, k, i, hplace, hr⟩
    exact ⟨i, mem_instructions_iff.2 ⟨c, k, hplace⟩, hr⟩

theorem isSome_block?_iff {id : BlockId} :
    (f.block? id).isSome = true ↔ id.toNat < f.blocks.size := by
  unfold block?
  simp

theorem instructionAt?_of_lt {c k : Nat} (hc : c < f.blocks.size)
    (hk : k < f.blocks[c].instructions.size) :
    f.instructionAt? c k = some f.blocks[c].instructions[k] :=
  instructionAt?_eq_some_iff.2 ⟨_, Array.getElem?_eq_getElem hc, Array.getElem?_eq_getElem hk⟩

/-- No register comes twice in the list of definitions exactly if none is defined at a place
and at a later one. -/
theorem nodup_definitions_iff_not_lt :
    f.definitions.Nodup ↔ ∀ c k i c' k' i' r, f.instructionAt? c k = some i →
      f.instructionAt? c' k' = some i' → i.defined? = some r → i'.defined? = some r →
      ¬ (c < c' ∨ c = c' ∧ k < k') := by
  unfold definitions instructions List.Nodup
  rw [List.pairwise_filterMap, List.pairwise_flatMap]
  simp only [List.pairwise_iff_getElem]
  constructor
  · rintro ⟨hwithin, hacross⟩ c k i c' k' i' r h h' hr hr' hlater
    obtain ⟨b, hb, hi⟩ := instructionAt?_eq_some_iff.1 h
    obtain ⟨b', hb', hi'⟩ := instructionAt?_eq_some_iff.1 h'
    rcases hlater with hlt | ⟨rfl, hlt⟩
    · obtain ⟨hc, rfl⟩ := Array.getElem?_eq_some_iff.1 hb
      obtain ⟨hc', rfl⟩ := Array.getElem?_eq_some_iff.1 hb'
      exact hacross c c' hc hc' hlt i (Array.mem_toList_iff.2 (Array.mem_of_getElem? hi)) i'
        (Array.mem_toList_iff.2 (Array.mem_of_getElem? hi')) r hr r hr' rfl
    · cases hb.symm.trans hb'
      obtain ⟨hk, rfl⟩ := Array.getElem?_eq_some_iff.1 hi
      obtain ⟨hk', rfl⟩ := Array.getElem?_eq_some_iff.1 hi'
      exact hwithin b (Array.mem_toList_iff.2 (Array.mem_of_getElem? hb)) k k' hk hk' hlt r hr r
        hr' rfl
  · intro hnot
    constructor
    · rintro b hb k k' hk hk' hlt r hr _ hr' rfl
      obtain ⟨c, hc, rfl⟩ := Array.mem_iff_getElem.1 (Array.mem_toList_iff.1 hb)
      exact hnot c k _ c k' _ r (instructionAt?_of_lt hc hk) (instructionAt?_of_lt hc hk') hr hr'
        (.inr ⟨rfl, hlt⟩)
    · rintro c c' hc hc' hlt i hi i' hi' r hr _ hr' rfl
      obtain ⟨k, hk, rfl⟩ := Array.mem_iff_getElem.1 (Array.mem_toList_iff.1 hi)
      obtain ⟨k', hk', rfl⟩ := Array.mem_iff_getElem.1 (Array.mem_toList_iff.1 hi')
      exact hnot c k _ c' k' _ r (instructionAt?_of_lt hc hk) (instructionAt?_of_lt hc' hk') hr
        hr' (.inl hlt)

/-- No register comes twice in the list of definitions exactly if no two places define
the same one. -/
theorem nodup_definitions_iff :
    f.definitions.Nodup ↔ ∀ c k i c' k' i' r, f.instructionAt? c k = some i →
      f.instructionAt? c' k' = some i' → i.defined? = some r → i'.defined? = some r →
      c = c' ∧ k = k' := by
  rw [nodup_definitions_iff_not_lt]
  constructor
  · intro hnot c k i c' k' i' r h h' hr hr'
    have hle := hnot c k i c' k' i' r h h' hr hr'
    have hge := hnot c' k' i' c k i r h' h hr' hr
    omega
  · intro hsingle c k i c' k' i' r h h' hr hr' hlater
    have := hsingle c k i c' k' i' r h h' hr hr'
    omega

end Function

/-! ## Declarations -/

/-- The number of arguments that the checker asks for is that of the last declaration. -/
theorem Module.arity?_eq_some_iff {m : Module} {symbol : String} {n : Nat} :
    m.arity? symbol = some n ↔ ∃ d, m.LastDeclaration symbol d ∧ d.params.length = n := by
  unfold arity? LastDeclaration
  rw [Option.map_eq_some_iff]
  refine exists_congr fun d => and_congr_left fun _ => ?_
  rw [List.find?_eq_some_iff_append]
  constructor
  · rintro ⟨hname, after, before, hsplit, hafter⟩
    refine ⟨before.reverse, after.reverse, ?_, by simpa using hname, ?_⟩
    · have hreverse := congrArg List.reverse hsplit
      simpa using hreverse
    · intro later hlater
      simpa using hafter later (List.mem_reverse.1 hlater)
  · rintro ⟨before, after, hsplit, hname, hafter⟩
    refine ⟨by simpa using hname, after.reverse, before.reverse, by simp [hsplit], ?_⟩
    intro later hlater
    simpa using hafter later (List.mem_reverse.1 hlater)

/-! ## The checker and the rules -/

namespace Function

variable {f : Function} {m : Module}

theorem WellFormed.lawful (h : f.WellFormed m) : f.Lawful m := by
  have hblock : ∀ b ∈ f.blocks, ∃ c, b.WellFormed m f c := by
    intro b hb
    obtain ⟨c, hc, rfl⟩ := Array.mem_iff_getElem.1 hb
    exact ⟨c, h.blocks c _ (Array.getElem?_eq_getElem hc)⟩
  have hplace : ∀ c k i, f.instructionAt? c k = some i →
      ∃ b : Block, b.WellFormed m f c ∧ i ∈ b.instructions.toList := by
    intro c k i hi
    obtain ⟨b, hb, hk⟩ := instructionAt?_eq_some_iff.1 hi
    exact ⟨b, h.blocks c b hb, Array.mem_toList_iff.2 (Array.mem_of_getElem? hk)⟩
  refine ⟨isSome_block?_iff.1 h.entry, fun c b hb => (h.blocks c b hb).numbered, ?_, ?_, ?_,
    nodup_definitions_iff.1 h.nodup, ?_, ?_⟩
  · intro b hb hnone
    obtain ⟨c, hwf⟩ := hblock b hb
    obtain ⟨t, ht, -⟩ := hwf.ends
    cases hnone.symm.trans ht
  · intro b hb t ht id hid
    obtain ⟨c, hwf⟩ := hblock b hb
    obtain ⟨t', ht', hsucc, -⟩ := hwf.ends
    cases ht.symm.trans ht'
    exact isSome_block?_iff.1 (hsucc id hid)
  · intro c k dst symbol args hi
    obtain ⟨b, hwf, hmem⟩ := hplace c k _ hi
    exact Module.arity?_eq_some_iff.1 (hwf.calls dst symbol args hmem)
  · intro c k i hi r hr
    obtain ⟨b, hwf, hmem⟩ := hplace c k i hi
    exact mem_definitions_iff.1 (hwf.reads i hmem r hr)
  · intro b hb t ht r hr
    obtain ⟨c, hwf⟩ := hblock b hb
    obtain ⟨t', ht', -, hused⟩ := hwf.ends
    cases ht.symm.trans ht'
    exact mem_definitions_iff.1 (hused r hr)

theorem Lawful.wellFormed (h : f.Lawful m) : f.WellFormed m := by
  refine ⟨isSome_block?_iff.2 h.entry, nodup_definitions_iff.2 h.single, ?_⟩
  intro c b hb
  have hmem : b ∈ f.blocks := Array.mem_of_getElem? hb
  have hplace : ∀ i ∈ b.instructions.toList, ∃ k, f.instructionAt? c k = some i := by
    intro i hi
    obtain ⟨k, hk, rfl⟩ := Array.mem_iff_getElem.1 (Array.mem_toList_iff.1 hi)
    exact ⟨k, instructionAt?_eq_some_iff.2 ⟨b, hb, Array.getElem?_eq_getElem hk⟩⟩
  refine ⟨h.numbered c b hb, ?_, ?_, ?_⟩
  · intro dst symbol args hi
    obtain ⟨k, hk⟩ := hplace _ hi
    exact Module.arity?_eq_some_iff.2 (h.calls c k dst symbol args hk)
  · intro i hi r hr
    obtain ⟨k, hk⟩ := hplace i hi
    exact mem_definitions_iff.2 (h.reads c k i hk r hr)
  · obtain ⟨t, ht⟩ := Option.ne_none_iff_exists'.1 (h.ended b hmem)
    refine ⟨t, ht, ?_, ?_⟩
    · intro id hid
      exact isSome_block?_iff.2 (h.targets b hmem t ht id hid)
    · intro r hr
      exact mem_definitions_iff.2 (h.endReads b hmem t ht r hr)

end Function

/-- The checker accepts a module exactly if all its functions obey the rules. -/
theorem Module.check_valid_iff_lawful (m : Module) :
    m.check.valid = true ↔ ∀ f ∈ m.functions, f.Lawful m := by
  rw [check_valid_iff]
  constructor
  · intro h f hf
    exact (h f hf).lawful
  · intro h f hf
    exact (h f hf).wellFormed

end TapeFlow
