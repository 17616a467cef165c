import TapeFlow.Check.Report

/-!
# What the checker accepts

The rules of the checker, stated without it, and the proof that it finds no
violation exactly where they hold.

* `Block.WellFormed`, `Function.WellFormed` — the rules for a block at its
  position and for a function of a module.
* `Module.checkFunction_violations_eq_nil_iff`, `Module.check_valid_iff` — the
  checker is content exactly with what is well formed.
-/

namespace TapeFlow

/-- What a block must be like to be in order at a position of a function. -/
structure Block.WellFormed (b : Block) (m : Module) (f : Function) (index : Nat) : Prop where
  /-- It carries the number of its position. -/
  numbered : b.id.toNat = index
  /-- It calls declared symbols, with as many arguments as they have parameters. -/
  calls : ∀ dst symbol args, .call dst symbol args ∈ b.instructions.toList →
    m.arity? symbol = some args.length
  /-- It reads only registers that the function defines. -/
  reads : ∀ i ∈ b.instructions.toList, ∀ r ∈ i.used, r ∈ f.definitions
  /-- It ends in a terminator that leads to blocks of the function and reads
  registers that the function defines. -/
  ends : ∃ t, b.terminator = some t ∧ (∀ id ∈ t.successors, (f.block? id).isSome = true) ∧
    ∀ r ∈ t.used, r ∈ f.definitions

/-- What a function must be like to be in order in a module. -/
structure Function.WellFormed (f : Function) (m : Module) : Prop where
  /-- There is a block at its start. -/
  entry : f.entryBlock?.isSome = true
  /-- No register is defined twice. -/
  nodup : f.definitions.Nodup
  /-- All its blocks are in order. -/
  blocks : ∀ (i : Nat) (b : Block), f.blocks[i]? = some b → b.WellFormed m f i

/-- A call in a function that is in order has the arguments that its symbol takes. -/
theorem Function.WellFormed.arity?_of_call {f : Function} {m : Module} (h : f.WellFormed m)
    {dst : Option Reg} {symbol : String} {args : List Reg}
    (hcall : .call dst symbol args ∈ f.instructions) : m.arity? symbol = some args.length := by
  obtain ⟨block, hblock, hi⟩ := List.mem_flatMap.1 hcall
  obtain ⟨i, hlt, rfl⟩ := Array.mem_iff_getElem.1 (Array.mem_toList_iff.1 hblock)
  exact (h.blocks i _ (Array.getElem?_eq_getElem hlt)).calls dst symbol args hi

/-! ## The checks -/

theorem Function.repeats_eq_nil_iff (seen : Std.HashSet Reg) (rs : List Reg) :
    repeats seen rs = [] ↔ rs.Nodup ∧ ∀ r ∈ rs, r ∉ seen := by
  induction rs generalizing seen with
  | nil => simp [repeats]
  | cons r rs ih =>
    rw [repeats, List.nodup_cons, List.forall_mem_cons]
    by_cases hr : seen.contains r = true
    · rw [if_pos hr]
      exact iff_of_false (List.cons_ne_nil _ _) fun h => h.2.1 (Std.HashSet.mem_iff_contains.2 hr)
    · rw [if_neg hr, ih]
      have hr' : r ∉ seen := fun h => hr (Std.HashSet.mem_iff_contains.1 h)
      simp only [Std.HashSet.mem_insert, beq_iff_eq, not_or]
      constructor
      · rintro ⟨hnodup, hrest⟩
        exact ⟨⟨fun hm => (hrest r hm).1 rfl, hnodup⟩, hr', fun q hq => (hrest q hq).2⟩
      · rintro ⟨⟨hnot, hnodup⟩, -, hrest⟩
        exact ⟨hnodup, fun q hq => ⟨fun he => hnot (he ▸ hq), hrest q hq⟩⟩

namespace Block

variable (b : Block) (m : Module) (f : Function)

theorem checkReads_eq_nil_iff (used : List Reg) :
    b.checkReads (Std.HashSet.ofList f.definitions) used = [] ↔ ∀ r ∈ used, r ∈ f.definitions := by
  simp [checkReads, List.filter_eq_nil_iff]

theorem checkNumber_eq_nil_iff (index : Nat) : b.checkNumber index = [] ↔ b.id.toNat = index := by
  rw [checkNumber]
  split <;> simp_all

theorem checkCall_eq_nil_iff (i : Instruction) :
    b.checkCall m i = [] ↔ ∀ dst symbol args, i = .call dst symbol args →
      m.arity? symbol = some args.length := by
  cases i with
  | call dst symbol args =>
    have hcall : (∀ dst' symbol' args', Instruction.call dst symbol args =
        .call dst' symbol' args' → m.arity? symbol' = some args'.length) ↔
        m.arity? symbol = some args.length := by
      constructor
      · exact fun h => h dst symbol args rfl
      · intro h dst' symbol' args' he
        cases he
        exact h
    rw [hcall, checkCall]
    cases harity : m.arity? symbol with
    | none => simp
    | some n =>
      simp only [Option.some.injEq]
      split <;> simp_all
  | _ => exact iff_of_true rfl nofun

theorem checkEnd_eq_nil_iff :
    b.checkEnd f (Std.HashSet.ofList f.definitions) = [] ↔
      ∃ t, b.terminator = some t ∧ (∀ id ∈ t.successors, (f.block? id).isSome = true) ∧
        ∀ r ∈ t.used, r ∈ f.definitions := by
  rw [checkEnd]
  cases b.terminator with
  | none => simp
  | some t =>
    rw [List.append_eq_nil_iff, checkReads_eq_nil_iff, List.map_eq_nil_iff, List.filter_eq_nil_iff]
    simp [Option.isSome_iff_ne_none]

theorem check_eq_nil_iff (index : Nat) :
    b.check m f (Std.HashSet.ofList f.definitions) index = [] ↔ b.WellFormed m f index := by
  rw [check, List.append_eq_nil_iff, List.append_eq_nil_iff, checkNumber_eq_nil_iff,
    checkEnd_eq_nil_iff, List.flatMap_eq_nil_iff]
  simp only [checkInstruction, List.append_eq_nil_iff, checkReads_eq_nil_iff, checkCall_eq_nil_iff]
  constructor
  · rintro ⟨⟨hnumber, hcode⟩, hend⟩
    exact ⟨hnumber, fun dst symbol args hi => (hcode _ hi).1 dst symbol args rfl,
      fun i hi => (hcode i hi).2, hend⟩
  · rintro ⟨hnumber, hcalls, hreads, hend⟩
    refine ⟨⟨hnumber, fun i hi => ⟨fun dst symbol args he => ?_, hreads i hi⟩⟩, hend⟩
    exact hcalls dst symbol args (he ▸ hi)

end Block

/-! ## The whole module -/

namespace Module

variable (m : Module) (f : Function)

theorem checkFunction_violations_eq_nil_iff :
    (m.checkFunction f).violations = [] ↔ f.WellFormed m := by
  rw [checkFunction]
  cases hentry : f.entryBlock? with
  | none =>
    simp only [Option.isNone_none, if_true]
    exact iff_of_false (List.cons_ne_nil _ _) fun h => by simpa [hentry] using h.entry
  | some block =>
    simp only [Option.isNone_some, Bool.false_eq_true, if_false]
    rw [List.append_eq_nil_iff, List.map_eq_nil_iff, Function.repeats_eq_nil_iff,
      List.flatMap_eq_nil_iff]
    simp only [Std.HashSet.not_mem_empty, not_false_eq_true, implies_true, and_true]
    have hblocks : (∀ p ∈ f.blocks.toList.zipIdx,
        p.1.check m f (Std.HashSet.ofList f.definitions) p.2 = []) ↔
        ∀ (i : Nat) (b : Block), f.blocks[i]? = some b → b.WellFormed m f i := by
      simp only [Prod.forall, List.mem_zipIdx_iff_getElem?, Array.getElem?_toList,
        Block.check_eq_nil_iff]
      exact forall_comm
    rw [hblocks]
    exact ⟨fun h => ⟨by rw [hentry]; rfl, h.1, h.2⟩, fun h => ⟨h.nodup, h.blocks⟩⟩

/-- What a module is told, it is told for one function after the other. -/
theorem check_part {α : Type} {part : Report → List α} (hempty : part {} = [])
    (happend : ∀ a b : Report, part (a ++ b) = part a ++ part b) :
    part m.check = m.functions.flatMap fun f => part (m.checkFunction f) := by
  have hfold : ∀ (rs : List Report) (r : Report),
      part (rs.foldl (· ++ ·) r) = part r ++ rs.flatMap part := by
    intro rs
    induction rs with
    | nil => simp
    | cons a rs ih =>
      intro r
      rw [List.foldl_cons, ih, happend, List.flatMap_cons, List.append_assoc]
  rw [check, hfold, hempty, List.nil_append, List.flatMap_map]

theorem check_violations : m.check.violations =
    m.functions.flatMap fun f => (m.checkFunction f).violations :=
  m.check_part rfl fun _ _ => rfl

theorem check_warnings : m.check.warnings =
    m.functions.flatMap fun f => (m.checkFunction f).warnings :=
  m.check_part rfl fun _ _ => List.map_append

/-- The checker finds nothing wrong exactly if every function is well formed. -/
theorem check_valid_iff : m.check.valid = true ↔ ∀ f ∈ m.functions, f.WellFormed m := by
  rw [Report.valid, List.isEmpty_iff, check_violations, List.flatMap_eq_nil_iff]
  simp only [checkFunction_violations_eq_nil_iff]

end Module

end TapeFlow
