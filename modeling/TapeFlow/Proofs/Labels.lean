import TapeFlow.Proofs.Building

/-!
# Labels

The label of a block is a stem and a running number with an underscore between
them, and a stem is any text: it can be empty, and it can end in an underscore
and a number itself.  Labels differ all the same, since a number has no
underscore in it, so that it can be read back from behind the last one.

* `numberedLabel_inj` — labels with different numbers differ, whatever their stems.
* `Builder.Labelled` — the invariant: labels differ, and those with a number have one that
  has been used up; `Builder.Labelled.after`.
* `Function.blockLabelled?_of_nodup` — a block is found by a label that no other block has.
* `Builder.labels_distinct` — so every block of a finished function is found by its label.
-/

namespace TapeFlow

/-- A label that is not the stem alone. -/
def numberedLabel (stem : String) (n : Nat) : String := s!"{stem}_{n}"

theorem toList_numberedLabel (stem : String) (n : Nat) :
    (numberedLabel stem n).toList = stem.toList ++ '_' :: Nat.toDigits 10 n := by
  have hlabel : numberedLabel stem n = stem ++ "_" ++ n.repr := rfl
  simp [hlabel, Nat.toList_repr]

/-- What stands behind the last underscore is the number. -/
theorem takeWhile_reverse_numberedLabel (stem : String) (n : Nat) :
    (numberedLabel stem n).toList.reverse.takeWhile (· ≠ '_') = (Nat.toDigits 10 n).reverse := by
  have hdigits : ∀ c ∈ (Nat.toDigits 10 n).reverse, decide (c ≠ '_') = true := by
    intro c hc
    rw [List.mem_reverse] at hc
    rw [decide_eq_true_eq]
    rintro rfl
    exact Nat.underscore_not_in_toDigits hc
  rw [toList_numberedLabel, List.reverse_append, List.reverse_cons, List.append_assoc,
    List.takeWhile_append_of_pos hdigits]
  simp

theorem numberedLabel_inj {stem stem' : String} {m n : Nat}
    (h : numberedLabel stem m = numberedLabel stem' n) : m = n := by
  have hbehind := takeWhile_reverse_numberedLabel stem m
  rw [h, takeWhile_reverse_numberedLabel, List.reverse_inj] at hbehind
  calc m = Nat.ofDigitChars 10 (Nat.toDigits 10 m) 0 := Nat.ofDigitChars_ten_toDigits.symm
    _ = Nat.ofDigitChars 10 (Nat.toDigits 10 n) 0 := by rw [hbehind]
    _ = n := Nat.ofDigitChars_ten_toDigits

theorem numberedLabel_ne_entry (stem : String) (n : Nat) : numberedLabel stem n ≠ "entry" := by
  intro h
  have hmem : '_' ∈ (numberedLabel stem n).toList := by simp [toList_numberedLabel]
  rw [h] at hmem
  exact absurd hmem (by decide)

/-- A block is found by a label that no other block has. -/
theorem Function.blockLabelled?_of_nodup {f : Function} {block : Block}
    (hnodup : (f.blocks.toList.map Block.label).Nodup) (hblock : block ∈ f.blocks) :
    f.blockLabelled? block.label = some block := by
  obtain ⟨i, hi, rfl⟩ := Array.mem_iff_getElem.1 hblock
  refine Array.find?_eq_some_iff_getElem.2 ⟨beq_self_eq_true _, i, hi, rfl, ?_⟩
  intro j hj
  have hne : f.blocks[j].label ≠ f.blocks[i].label := by
    have hpair := List.pairwise_iff_getElem.1 hnodup j i (by simp; omega) (by simpa using hi) hj
    simpa using hpair
  simp [hne]

namespace Builder

variable {b b' : Builder} {op : Op} {ops : List Op}

/-- The labels in use. -/
def labels (b : Builder) : List String := b.blocks.toList.map Block.label

theorem getElem?_labels (b : Builder) (j : Nat) :
    b.labels[j]? = b.blocks[j]?.map Block.label := by
  simp [labels]

/-- Where no block was made, the labels are those from before. -/
theorem Grows.labels_eq (h : b.Grows b') (hsize : b'.blocks.size = b.blocks.size) :
    b'.labels = b.labels := by
  refine List.ext_getElem? fun j => ?_
  rw [getElem?_labels, getElem?_labels]
  cases hblock : b.blocks[j]? with
  | none =>
    have hj : b'.blocks[j]? = none := by
      rw [Array.getElem?_eq_none_iff] at hblock ⊢
      omega
    rw [hj]
  | some block =>
    obtain ⟨block', hblock', hgrows⟩ := h.blocks j block hblock
    rw [hblock', Option.map_some, Option.map_some, hgrows.label]

/-- All labels differ, and the numbers in them are below the next one. -/
structure Labelled (b : Builder) : Prop where
  /-- No more numbers have been used than there are blocks. -/
  next : b.nextLabel.toNat ≤ b.blocks.size
  /-- Every label but that of a first block has a number in it. -/
  old : ∀ label ∈ b.labels,
    label = "entry" ∨ ∃ stem n, n < b.nextLabel.toNat ∧ label = numberedLabel stem n
  /-- No two labels are the same. -/
  distinct : b.labels.Nodup

/-- The label of a new block is new. -/
theorem Labelled.numberedLabel_notMem (h : b.Labelled) (stem : String) :
    numberedLabel stem b.nextLabel.toNat ∉ b.labels := by
  intro hmem
  rcases h.old _ hmem with hentry | ⟨stem', n, hn, hlabel⟩
  · exact numberedLabel_ne_entry _ _ hentry
  · have hsame := numberedLabel_inj hlabel
    omega

theorem Labelled.addBlock (h : b.Labelled) (hsize : b.blocks.size + 1 < 2 ^ 32) (stem : String) :
    (b.addBlock stem).Labelled := by
  have hlabels : (b.addBlock stem).labels =
      b.labels ++ [numberedLabel stem b.nextLabel.toNat] := by
    simp [labels, Builder.addBlock, Block.empty, numberedLabel]
  have hnext : (b.addBlock stem).nextLabel.toNat = b.nextLabel.toNat + 1 := by
    have hle := h.next
    have hadd : (b.addBlock stem).nextLabel = b.nextLabel + 1 := rfl
    rw [hadd, UInt32.toNat_add]
    exact Nat.mod_eq_of_lt (by simpa using by omega)
  refine ⟨?_, ?_, ?_⟩
  · rw [hnext, size_addBlock]
    exact Nat.succ_le_succ h.next
  · intro label hlabel
    rw [hnext]
    rw [hlabels, List.mem_append, List.mem_singleton] at hlabel
    rcases hlabel with hlabel | rfl
    · rcases h.old label hlabel with hentry | ⟨stem', n, hn, rfl⟩
      · exact .inl hentry
      · exact .inr ⟨stem', n, Nat.lt_succ_of_lt hn, rfl⟩
    · exact .inr ⟨stem, _, Nat.lt_succ_self _, rfl⟩
  · rw [hlabels, List.nodup_append]
    refine ⟨h.distinct, List.nodup_singleton _, ?_⟩
    rintro label hlabel _ hnew rfl
    rw [List.mem_singleton] at hnew
    exact h.numberedLabel_notMem stem (hnew ▸ hlabel)

theorem Labelled.append (h : b.Labelled) (hsize : b.blocks.size + 1 < 2 ^ 32) (stem : String) :
    (b.append stem).Labelled := by
  unfold Builder.append
  by_cases hfirst : (b.blocks.isEmpty && stem == "entry") = true
  · -- The only label without a number is given while there are no others.
    rw [if_pos hfirst]
    rw [Bool.and_eq_true, Array.isEmpty_iff, beq_iff_eq] at hfirst
    obtain ⟨hempty, rfl⟩ := hfirst
    have hnext := h.next
    rw [hempty] at hnext
    refine ⟨?_, ?_, ?_⟩
    · rw [hempty]
      exact Nat.le_succ_of_le hnext
    · simp [labels, hempty, Block.empty]
    · simp [labels, hempty]
  · rw [if_neg hfirst]
    exact h.addBlock hsize stem

theorem nextLabel_step (happends : op.appends = false) (b : Builder) :
    (b.step op).nextLabel = b.nextLabel := by
  have hdoes := op.does b
  unfold step
  generalize op.run b = result at hdoes
  cases hdoes with
  | append stem => cases happends
  | move | take | refuse | add | finish => rfl

theorem Labelled.step (h : b.Labelled) (hsize : (b.step op).blocks.size < 2 ^ 32) :
    (b.step op).Labelled := by
  have hgrows := b.grows_step op
  rw [size_step] at hsize
  cases happends : op.appends with
  | true =>
    cases op with
    | appendBlock stem =>
      rw [step_appendBlock]
      exact h.append hsize stem
    | _ => cases happends
  | false =>
    have hsame : (b.step op).blocks.size = b.blocks.size := by rw [size_step, happends]; rfl
    have hlabels := hgrows.labels_eq hsame
    have hnext := nextLabel_step happends b
    refine ⟨?_, ?_, ?_⟩
    · rw [hnext, hsame]
      exact h.next
    · rw [hlabels, hnext]
      exact h.old
    · rw [hlabels]
      exact h.distinct

theorem Labelled.after (h : b.Labelled) (hsize : (b.after ops).blocks.size < 2 ^ 32) :
    (b.after ops).Labelled := by
  induction ops generalizing b with
  | nil => exact h
  | cons op ops ih =>
    have hstep : (b.step op).blocks.size < 2 ^ 32 := by
      have hcons : b.after (op :: ops) = (b.step op).after ops := rfl
      rw [hcons, size_after] at hsize
      omega
    exact ih (h.step hstep) hsize

theorem labelled_new (name : String) (ret : Ty) : (new name ret).Labelled :=
  ⟨Nat.le_refl 0, fun _ h => absurd h List.not_mem_nil, List.nodup_nil⟩

/-- Whatever stems the blocks of a function were given, its labels differ, and each block is
found by its own. -/
theorem labels_distinct (name : String) (ret : Ty) {ops : List Op}
    (hblocks : ops.countP Op.appends < 2 ^ 32) :
    let f := ((new name ret).after ops).finish
    (f.blocks.toList.map Block.label).Nodup ∧
      ∀ block ∈ f.blocks, f.blockLabelled? block.label = some block := by
  have hsize : ((new name ret).after ops).blocks.size < 2 ^ 32 := by
    rw [size_after]
    simpa [new] using hblocks
  have hnodup := ((labelled_new name ret).after hsize).distinct
  exact ⟨hnodup, fun block hblock => Function.blockLabelled?_of_nodup hnodup hblock⟩

/-- Stems that are empty, repeated, or look like labels themselves. -/
def awkwardStems : List Op :=
  [.appendBlock "entry", .const .i8 1, .appendBlock "entry", .appendBlock "",
    .appendBlock "entry_0", .position ⟨2⟩, .terminate (.ret none), .appendBlock "_1",
    .appendBlock "entry"]

theorem labels_distinct_awkwardStems :
    let f := ((new "main" .void).after awkwardStems).finish
    awkwardStems.countP Op.appends = 6 ∧
      f.blocks.toList.map Block.label =
        ["entry", "entry_0", "_1", "entry_0_2", "_1_3", "entry_4"] ∧
      (f.blocks.toList.map Block.label).Nodup ∧
      ∀ block ∈ f.blocks, f.blockLabelled? block.label = some block :=
  ⟨rfl, by decide, labels_distinct "main" .void (by decide)⟩

end Builder

end TapeFlow
