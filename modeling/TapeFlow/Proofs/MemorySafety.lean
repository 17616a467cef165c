import TapeFlow.Proofs.Action

/-!
# Memory is safe, whatever is run

The machine takes nothing for granted: a function may be malformed, its registers
may hold anything, and an offset may have wrapped around.  Still an address names an
allocation that exists, allocations stay as long as they are, and no byte outside
of them is read or written.

* `Memory.Extends` — allocations are only added, and keep their lengths.
* `Span.Shows` — the bytes at the places of a span, one for one; `Instruction.Accesses` —
  what a load, a store or a fill does with them, and with no others.
* `Machine.Anchored` — every address in a register names an allocation.
* `Exec.perform_cases` — what an action comes to on such a machine: it is done on
  bytes that are there, or the machine faults and nothing has changed.
* `Function.runFrom_safe` — what one step keeps, a run keeps.
* `Executor.run_memorySafe` — hence every run is safe, with any symbols, any input
  and any step limit.
-/

namespace TapeFlow

/-! ## Memory only grows -/

/-- A write leaves the bytes before and after it as they are. -/
theorem Allocation.getElem?_write_of_outside (a : Allocation) {offset index : Nat}
    {bytes : List UInt8} (h : index < offset ∨ offset + bytes.length ≤ index) :
    (a.write offset bytes)[index]? = a[index]? := by
  induction bytes generalizing a offset with
  | nil => rfl
  | cons b bs ih =>
    rw [List.length_cons] at h
    rw [write, ih _ (by omega), Array.getElem?_setIfInBounds_ne (by omega)]

namespace Memory

/-- The byte at an index of an allocation. -/
def byte? (memory : Memory) (alloc index : Nat) : Option UInt8 :=
  memory.allocations[alloc]?.bind fun a => a[index]?

/-- Every allocation is still there, and as long as it was. -/
def Extends (old new : Memory) : Prop :=
  ∀ alloc size, old.size? alloc = some size → new.size? alloc = some size

variable {memory : Memory} {alloc index : Nat}

theorem Extends.refl (memory : Memory) : memory.Extends memory := fun _ _ h => h

theorem Extends.trans {a b c : Memory} (hab : a.Extends b) (hbc : b.Extends c) : a.Extends c :=
  fun alloc size h => hbc alloc size (hab alloc size h)

theorem lt_size_iff :
    alloc < memory.allocations.size ↔ ∃ size, memory.size? alloc = some size := by
  unfold size?
  constructor
  · intro h
    exact ⟨_, by rw [Array.getElem?_eq_getElem h, Option.map_some]⟩
  · rintro ⟨size, h⟩
    obtain ⟨a, ha, -⟩ := Option.map_eq_some_iff.1 h
    exact (Array.getElem?_eq_some_iff.1 ha).1

theorem Extends.lt_size {old new : Memory} (h : old.Extends new)
    (halloc : alloc < old.allocations.size) : alloc < new.allocations.size := by
  obtain ⟨size, hsize⟩ := lt_size_iff.1 halloc
  exact lt_size_iff.2 ⟨size, h alloc size hsize⟩

theorem getElem?_allocate_of_lt (size : Nat) (h : alloc < memory.allocations.size) :
    (memory.allocate size).allocations[alloc]? = memory.allocations[alloc]? := by
  rw [allocate, Array.getElem?_push, if_neg (by omega)]

theorem extends_allocate (memory : Memory) (size : Nat) :
    memory.Extends (memory.allocate size) := by
  intro alloc length h
  rw [size?, getElem?_allocate_of_lt size (lt_size_iff.2 ⟨length, h⟩)]
  exact h

/-- A byte that a write has changed is in its range. -/
theorem mem_range_of_byte?_write_ne {other offset : Nat} {bytes : List UInt8}
    (h : (memory.write alloc offset bytes).byte? other index ≠ memory.byte? other index) :
    alloc = other ∧ offset ≤ index ∧ index < offset + bytes.length := by
  unfold byte? at h
  rw [write, Array.getElem?_modify] at h
  by_cases halloc : alloc = other
  · refine ⟨halloc, ?_⟩
    rw [if_pos halloc] at h
    cases ha : memory.allocations[other]? with
    | none => simp [ha] at h
    | some a =>
      rw [ha] at h
      have hinside : ¬ (index < offset ∨ offset + bytes.length ≤ index) := fun hout =>
        h (Allocation.getElem?_write_of_outside a hout)
      omega
  · rw [if_neg halloc] at h
    exact absurd rfl h

/-- The second memory has the same allocations, of the same lengths, and differs from the
first at most in the bytes of a span. -/
structure SameOutside (span : Span) (old new : Memory) : Prop where
  /-- The allocations and their lengths are the same. -/
  size : ∀ alloc, new.size? alloc = old.size? alloc
  /-- So is every byte that is not one of the span. -/
  bytes : ∀ alloc index, ¬ span.Covers alloc index → new.byte? alloc index = old.byte? alloc index

theorem sameOutside_write (memory : Memory) (span : Span) {bytes : List UInt8}
    (h : bytes.length = span.length.toNat) :
    memory.SameOutside span (memory.write span.alloc span.offset.toNat bytes) := by
  refine ⟨fun alloc => ?_, fun alloc index hout => ?_⟩
  · unfold size? write
    rw [Array.getElem?_modify]
    by_cases halloc : span.alloc = alloc
    · rw [if_pos halloc, Option.map_map]
      congr 1
      funext a
      exact Allocation.size_write a _ _
    · rw [if_neg halloc]
  · refine Classical.byContradiction fun hne => ?_
    have hrange := mem_range_of_byte?_write_ne hne
    rw [h] at hrange
    exact hout hrange

theorem SameOutside.extends {span : Span} {old new : Memory} (h : old.SameOutside span new) :
    old.Extends new := fun alloc _ hsize => (h.size alloc).trans hsize

/-! ## Bytes at their places -/

theorem getElem?_read (memory : Memory) (alloc offset length j : Nat) :
    (memory.read alloc offset length)[j]? =
      if j < length then memory.byte? alloc (offset + j) else none := by
  unfold read byte?
  cases memory.allocations[alloc]? with
  | none => simp
  | some a =>
    simp only [Allocation.read, Option.bind_some, Array.getElem?_toList, Array.getElem?_extract,
      Nat.min_def]
    by_cases hj : j < length
    · rw [if_pos hj]
      split
      · rw [if_pos (by omega)]
      · split
        · rfl
        · exact (Array.getElem?_eq_none (by omega)).symm
    · rw [if_neg hj]
      split <;> exact if_neg (by omega)

theorem length_read {offset length size : Nat} (hsize : memory.size? alloc = some size)
    (hle : offset + length ≤ size) : (memory.read alloc offset length).length = length := by
  obtain ⟨a, ha, rfl⟩ := Option.map_eq_some_iff.1 hsize
  simp only [read, ha, Allocation.read, Array.length_toList, Array.size_extract]
  omega

/-- The bytes of a write that has room are the bytes that are there afterwards. -/
theorem byte?_write_of_lt {offset size j : Nat} (bytes : List UInt8)
    (hsize : memory.size? alloc = some size) (hroom : offset + bytes.length ≤ size)
    (hj : j < bytes.length) :
    (memory.write alloc offset bytes).byte? alloc (offset + j) = bytes[j]? := by
  obtain ⟨a, ha, rfl⟩ := Option.map_eq_some_iff.1 hsize
  have htake : (a.toList.take offset).length = offset := by
    rw [List.length_take, Array.length_toList]
    omega
  unfold byte? write
  rw [Array.getElem?_modify, if_pos rfl, ha, Option.map_some, Option.bind_some,
    ← Array.getElem?_toList, Allocation.toList_write a offset bytes hroom,
    List.getElem?_append_left (by rw [List.length_append, htake]; omega),
    List.getElem?_append_right (by omega), htake, Nat.add_sub_cancel_left]

end Memory

/-- The bytes are those of the span, one for one, each at its place. -/
structure Span.Shows (span : Span) (memory : Memory) (bytes : List UInt8) : Prop where
  /-- There is one for each place. -/
  length : bytes.length = span.length.toNat
  /-- It is the one that stands there. -/
  byte : ∀ j, j < span.length.toNat → memory.byte? span.alloc (span.offset.toNat + j) = bytes[j]?

/-- What is read of bytes that are there is just these bytes. -/
theorem Span.Inside.shows_read {span : Span} {memory : Memory} (h : span.Inside memory) :
    span.Shows memory (memory.read span.alloc span.offset.toNat span.length.toNat) := by
  obtain ⟨size, hsize, hle⟩ := h
  refine ⟨Memory.length_read hsize hle, fun j hj => ?_⟩
  rw [Memory.getElem?_read, if_pos hj]

/-- What is written over bytes that are there stands there afterwards. -/
theorem Span.Inside.shows_write {span : Span} {memory : Memory} (h : span.Inside memory)
    {bytes : List UInt8} (hbytes : bytes.length = span.length.toNat) :
    span.Shows (memory.write span.alloc span.offset.toNat bytes) bytes := by
  obtain ⟨size, hsize, hle⟩ := h
  refine ⟨hbytes, fun j hj => ?_⟩
  rw [← hbytes] at hle hj
  exact Memory.byte?_write_of_lt bytes hsize hle hj

/-! ## Addresses name allocations -/

namespace Machine

/-- Every address in a register names an allocation that exists. -/
def Anchored (m : Machine) : Prop :=
  ∀ (r : Reg) (alloc : Nat) (offset : UInt64), m.regs[r]? = some (.ptr alloc offset) →
    alloc < m.memory.allocations.size

variable {m m' : Machine}

/-- At the start no register has a value. -/
theorem anchored_start (input : List UInt8) : ({ input } : Machine).Anchored := by
  intro r alloc offset h
  simp at h

/-- More memory can only help. -/
theorem Anchored.of_regs (h : m.Anchored) (hregs : m'.regs = m.regs)
    (hmemory : m.memory.Extends m'.memory) : m'.Anchored := by
  intro r alloc offset hr
  rw [hregs] at hr
  exact hmemory.lt_size (h r alloc offset hr)

theorem Anchored.set (h : m.Anchored) (r : Reg) {v : Value}
    (hv : ∀ alloc offset, v = .ptr alloc offset → alloc < m.memory.allocations.size) :
    (m.set r v).Anchored := by
  intro q alloc offset hq
  rw [regs_set] at hq
  by_cases hrq : r = q
  · rw [if_pos hrq] at hq
    exact hv alloc offset (Option.some.inj hq)
  · rw [if_neg hrq] at hq
    exact h q alloc offset hq

theorem Anchored.set_int (h : m.Anchored) (r : Reg) (word : UInt64) :
    (m.set r (.int word)).Anchored :=
  h.set r fun _ _ he => by cases he

end Machine

/-- The instruction reads or writes the bytes of a span, and no others, on the way from one
machine to the next. -/
inductive Instruction.Accesses (symbols : Symbols) (m : Machine) :
    Instruction → Span → Machine → Prop where
  /-- A load makes a word of the bytes, and changes nothing but its register. -/
  | read {dst p : Reg} {ty : Ty} {span : Span} {bytes : List UInt8}
    (address : m.regs[p]? = some (.ptr span.alloc span.offset))
    (scalar : ty.scalarSize? = some span.length) (shows : span.Shows m.memory bytes) :
    Accesses symbols m (.load dst ty p) span
      (m.set dst (.int (ty.truncate (ofLittleEndian bytes))))
  /-- A store or a fill leaves what it supplies, and changes nothing else. -/
  | write {i : Instruction} {span : Span} {bytes : Nat → List UInt8} {memory : Memory}
    (targets : i.Targets symbols m span) (supplies : i.Supplies m bytes)
    (shows : span.Shows memory (bytes span.length.toNat))
    (rest : m.memory.SameOutside span memory) :
    Accesses symbols m i span { m with memory }

/-- What an action that was performed has done. -/
structure Performed (symbols : Symbols) (i : Instruction) (m : Machine) (action : Action)
    (m' : Machine) : Prop where
  /-- Every address still names an allocation. -/
  anchored : m'.Anchored
  /-- Every allocation is as long as it was. -/
  kept : m.memory.Extends m'.memory
  /-- The bytes that were read or written are there. -/
  inside : ∀ span, action.span? = some span → span.Inside m.memory
  /-- An instruction that goes to memory has read or written just these. -/
  accesses : i.isAccess symbols = true → ∃ span, action.span? = some span ∧
    i.Accesses symbols m span m'
  /-- No other byte has changed. -/
  frame : ∀ alloc index, alloc < m.memory.allocations.size →
    m'.memory.byte? alloc index ≠ m.memory.byte? alloc index →
    ∃ span, action.span? = some span ∧ span.Covers alloc index

namespace Exec

variable {m m' : Machine} {action : Action} {symbols : Symbols} {i : Instruction}

/-- An action that leaves memory alone. -/
theorem performed_of_memory (hspan : action.span? = none) (hfree : i.isAccess symbols = false)
    (hmemory : m'.memory = m.memory) (hanchored : m'.Anchored) :
    Performed symbols i m action m' := by
  refine ⟨hanchored, ?_, ?_, ?_, ?_⟩
  · rw [hmemory]
    exact .refl _
  · intro span h
    rw [hspan] at h
    cases h
  · intro haccess
    rw [hfree] at haccess
    cases haccess
  · intro alloc index _ hne
    rw [hmemory] at hne
    exact absurd rfl hne

/-- An access to an allocation that exists succeeds or is out of range. -/
theorem inRange_cases {span : Span} (h : span.alloc < m.memory.allocations.size) :
    (span.Inside m.memory ∧ inRange span.alloc span.offset span.length m = .ok () m) ∨
      ∃ size, m.memory.size? span.alloc = some size ∧
        size < span.offset.toNat + span.length.toNat ∧
        inRange span.alloc span.offset span.length m =
          .error (.outOfRange span.length.toNat span.offset.toNat span.alloc size) m := by
  obtain ⟨size, hsize⟩ := Memory.lt_size_iff.1 h
  unfold inRange
  rw [hsize]
  by_cases hle : span.offset.toNat + span.length.toNat ≤ size
  · exact .inl ⟨⟨size, hsize, hle⟩, if_pos hle⟩
  · exact .inr ⟨size, rfl, Nat.lt_of_not_le hle, if_neg hle⟩

/-- Giving a register a word, after a change that is not one of memory or registers. -/
theorem performed_keep (hm : m.Anchored) (hspan : action.span? = none)
    (hfree : i.isAccess symbols = false) (hmemory : m'.memory = m.memory)
    (hregs : m'.regs = m.regs) (dst : Option Reg) (word : UInt64) :
    ∃ m'', keep dst (.int word) m' = .ok () m'' ∧ Performed symbols i m action m'' := by
  have hm' : m'.Anchored := hm.of_regs hregs (by rw [hmemory]; exact .refl _)
  cases dst with
  | none => exact ⟨m', rfl, performed_of_memory hspan hfree hmemory hm'⟩
  | some r =>
    exact ⟨m'.set r (.int word), rfl,
      performed_of_memory hspan hfree hmemory (hm'.set_int r word)⟩

/-- An action is performed, or it accesses bytes that are not there and nothing has
changed. -/
theorem perform_cases (hm : m.Anchored) (hdecoded : Decoded symbols m i action) :
    (∃ m', perform action m = .ok () m' ∧ Performed symbols i m action m') ∨
      ∃ span size, action.span? = some span ∧ m.memory.size? span.alloc = some size ∧
        size < span.offset.toNat + span.length.toNat ∧ perform action m =
          .error (.outOfRange span.length.toNat span.offset.toNat span.alloc size) m := by
  have hlt : ∀ alloc, action.refersTo? = some alloc → alloc < m.memory.allocations.size := by
    intro alloc h
    obtain ⟨r, offset, hr⟩ := hdecoded.pointer alloc h
    exact hm r alloc offset hr
  have horigin := hdecoded.origin
  cases action with
  | put dst value =>
    obtain ⟨-, -, hfree⟩ := horigin
    refine .inl ⟨m.set dst value, rfl, performed_of_memory rfl hfree rfl (hm.set dst ?_)⟩
    rintro alloc offset rfl
    exact hlt alloc rfl
  | allocate dst size =>
    obtain ⟨ty, count, rfl, -⟩ := horigin
    -- the new allocation comes last, and the address of it is the only new one
    have hgrown := Memory.extends_allocate m.memory size
    have hm' : ({ m with memory := m.memory.allocate size } : Machine).Anchored :=
      hm.of_regs rfl hgrown
    refine .inl ⟨_, rfl, hm'.set dst ?_, hgrown, nofun, nofun, ?_⟩
    · intro alloc offset he
      cases he
      show m.memory.allocations.size < (m.memory.allocations.push _).size
      rw [Array.size_push]
      exact Nat.lt_succ_self _
    · intro alloc index halloc hne
      refine absurd ?_ hne
      show (m.memory.allocate size).byte? alloc index = _
      rw [Memory.byte?, Memory.getElem?_allocate_of_lt size halloc]
      rfl
  | load dst ty span =>
    obtain ⟨p, rfl, haddress, hscalar⟩ := horigin
    rcases inRange_cases (hlt span.alloc rfl) with ⟨hinside, hok⟩ | ⟨size, hsize, hout, herror⟩
    · refine .inl ⟨_, bind_of_ok (bind_of_ok hok), hm.set_int dst _, .refl _, ?_, ?_, ?_⟩
      · rintro _ ⟨⟩
        exact hinside
      · exact fun _ => ⟨span, rfl, .read haddress hscalar hinside.shows_read⟩
      · intro alloc index _ hne
        exact absurd rfl hne
    · exact .inr ⟨span, size, rfl, hsize, hout, bind_of_error (bind_of_error herror)⟩
  | overwrite span bytes =>
    obtain ⟨htargets, hsupplies⟩ := horigin
    have hlength := hsupplies.length_eq span.length.toNat
    rcases inRange_cases (hlt span.alloc rfl) with ⟨hinside, hok⟩ | ⟨size, hsize, hout, herror⟩
    · have hrest := m.memory.sameOutside_write span hlength
      refine .inl ⟨_, bind_of_ok hok, hm.of_regs rfl hrest.extends, hrest.extends, ?_, ?_, ?_⟩
      · rintro _ ⟨⟩
        exact hinside
      · exact fun _ => ⟨span, rfl, .write htargets hsupplies (hinside.shows_write hlength) hrest⟩
      · intro alloc index _ hne
        exact ⟨span, rfl, Classical.byContradiction fun hout => hne (hrest.bytes _ _ hout)⟩
    · exact .inr ⟨span, size, rfl, hsize, hout, bind_of_error herror⟩
  | receive dst =>
    obtain ⟨-, hcap⟩ := horigin
    have hspan : (Action.receive dst).span? = none := rfl
    have hmemory : ({ m with input := m.input.tail } : Machine).memory = m.memory := rfl
    have haccess := Instruction.isAccess_of_capability? hcap nofun
    obtain ⟨m'', hkeep, hdone⟩ :=
      performed_keep hm hspan haccess hmemory rfl dst (m.input.headD 0).toUInt64
    exact .inl ⟨m'', (bind_of_ok (readInput_eq m)).trans hkeep, hdone⟩
  | send dst byte =>
    obtain ⟨-, hcap⟩ := horigin
    have hspan : (Action.send dst byte).span? = none := rfl
    have hmemory : ({ m with output := m.output.push byte } : Machine).memory = m.memory := rfl
    have haccess := Instruction.isAccess_of_capability? hcap nofun
    obtain ⟨m'', hkeep, hdone⟩ := performed_keep hm hspan haccess hmemory rfl dst 0
    exact .inl ⟨m'', (bind_of_ok rfl).trans hkeep, hdone⟩

/-- A step that does an instruction. -/
theorem tick_of_instruction (symbols : Symbols) (f : Function) {p : Position} {i : Instruction}
    {rest : List Instruction} (h : p.rest = i :: rest) (m : Machine) :
    tick symbols f p m =
      (do decode symbols i >>= perform; return .goto { p with rest } : Exec Move) m.tick := by
  rw [← step_eq]
  unfold tick
  rw [h]
  exact bind_of_ok rfl

/-- What a step can do: perform an action, leave a block, or fault and change nothing.
It never faults for want of an allocation. -/
theorem tick_cases (symbols : Symbols) (f : Function) (p : Position) (hm : m.Anchored) :
    (∃ i rest action m', p.rest = i :: rest ∧ decode symbols i m.tick = .ok action m.tick ∧
        tick symbols f p m = .ok (.goto { p with rest }) m' ∧
        Performed symbols i m.tick action m') ∨
      (p.rest = [] ∧ ∃ move, tick symbols f p m = .ok move m.tick) ∨
      ∃ fault, tick symbols f p m = .error fault m.tick ∧ ∀ alloc, fault ≠ .dangling alloc := by
  have hm' : m.tick.Anchored := hm
  have hattached : ∀ fault : Fault, fault.isAccess = false → ∀ alloc, fault ≠ .dangling alloc := by
    rintro fault hfault alloc rfl
    cases hfault
  cases hrest : p.rest with
  | cons i rest =>
    rw [tick_of_instruction symbols f hrest]
    rcases (looks_decode symbols i).here with
      ⟨action, hdecode, hdecoded⟩ | ⟨fault, hdecode, hfault⟩
    · rcases perform_cases hm' hdecoded with ⟨m', hok, hdone⟩ | ⟨span, size, -, -, -, herror⟩
      · refine .inl ⟨i, rest, action, m', rfl, hdecode, ?_, hdone⟩
        exact bind_of_ok ((bind_of_ok hdecode).trans hok)
      · refine .inr (.inr ⟨_, bind_of_error ((bind_of_ok hdecode).trans herror), ?_⟩)
        intro alloc he
        cases he
    · exact .inr (.inr ⟨fault, bind_of_error (bind_of_error hdecode), hattached fault hfault⟩)
  | nil =>
    cases hend : p.terminator with
    | none =>
      have htick : tick symbols f p m = .error (.missingTerminator p.label) m.tick := by
        unfold tick
        rw [hrest, hend]
        exact bind_of_ok rfl
      exact .inr (.inr ⟨_, htick, hattached _ rfl⟩)
    | some t =>
      have htick : tick symbols f p m = leave f t m.tick := by
        unfold tick
        rw [hrest, hend]
        exact bind_of_ok rfl
      rw [htick]
      rcases (looks_leave f t).here with ⟨move, hleave, -⟩ | ⟨fault, hleave, hfault⟩
      · exact .inr (.inl ⟨rfl, move, hleave⟩)
      · exact .inr (.inr ⟨fault, hleave, hattached fault hfault⟩)

/-- A step keeps every address in place and every allocation as long as it was. -/
theorem tick_safe (symbols : Symbols) (f : Function) (p : Position) (hm : m.Anchored) :
    match tick symbols f p m with
    | .ok _ m' => m'.Anchored ∧ m.memory.Extends m'.memory
    | .error fault m' => m'.Anchored ∧ m.memory.Extends m'.memory ∧
      ∀ alloc, fault ≠ .dangling alloc := by
  have hm' : m.tick.Anchored := hm
  have hkept : m.memory.Extends m.tick.memory := .refl _
  rcases tick_cases symbols f p hm with
    ⟨i, rest, action, m', -, -, htick, hdone⟩ | ⟨-, move, htick⟩ | ⟨fault, htick, hfault⟩
  · rw [htick]
    exact ⟨hdone.anchored, hkept.trans hdone.kept⟩
  · rw [htick]
    exact ⟨hm', hkept⟩
  · rw [htick]
    exact ⟨hm', hkept, hfault⟩

end Exec

/-! ## Whole runs -/

namespace Function

variable {f : Function} {symbols : Symbols} {m m' : Machine} {n : Nat}

/-- What one step keeps, a run keeps. -/
theorem runFrom_safe (hm : m.Anchored) {p : Position} {status : Status}
    (h : f.runFrom symbols n p m = (status, m')) :
    m'.Anchored ∧ m.memory.Extends m'.memory ∧ ∀ alloc, status ≠ .faulted (.dangling alloc) := by
  induction n generalizing p m with
  | zero =>
    cases h
    refine ⟨hm, .refl _, ?_⟩
    intro alloc he
    cases he
  | succ n ih =>
    have htick := Exec.tick_safe symbols f p hm
    rw [runFrom] at h
    split at h
    · rename_i q next hq
      rw [hq] at htick
      obtain ⟨hlast, hkept, hstatus⟩ := ih htick.1 h
      exact ⟨hlast, htick.2.trans hkept, hstatus⟩
    · rename_i code last hlast
      rw [hlast] at htick
      cases h
      refine ⟨htick.1, htick.2, ?_⟩
      intro alloc he
      cases he
    · rename_i fault last hfault
      rw [hfault] at htick
      cases h
      refine ⟨htick.1, htick.2.1, ?_⟩
      intro alloc he
      exact htick.2.2 alloc (Status.faulted.inj he)

theorem runFor_safe (hm : m.Anchored) {status : Status}
    (h : f.runFor symbols n m = (status, m')) :
    m'.Anchored ∧ m.memory.Extends m'.memory ∧ ∀ alloc, status ≠ .faulted (.dangling alloc) := by
  unfold runFor Exec.enter at h
  cases hentry : f.block? f.entry with
  | some b =>
    simp only [hentry] at h
    exact runFrom_safe hm h
  | none =>
    simp only [hentry] at h
    cases h
    exact ⟨hm, .refl _, nofun⟩

/-- A run that is not over goes on from where it stands. -/
theorem runFor_add {q : Position} (h : f.runFor symbols n m = (.running q, m')) (k : Nat) :
    f.runFor symbols (n + k) m = f.runFrom symbols k q m' := by
  unfold runFor at h ⊢
  split at h
  · exact runFrom_add h k
  · cases h

/-- Memory at a point of a run is kept up to every later point. -/
theorem extends_of_le (hm : m.Anchored) {k : Nat} (hk : k ≤ n) :
    (f.runFor symbols k m).2.memory.Extends (f.runFor symbols n m).2.memory := by
  obtain ⟨d, rfl⟩ := Nat.exists_eq_add_of_le hk
  cases hrun : f.runFor symbols k m with
  | mk status mid =>
    have hmid := (runFor_safe hm hrun).1
    cases status with
    | running q =>
      rw [runFor_add hrun d]
      exact (runFrom_safe hmid (p := q) (n := d) rfl).2.1
    | returned code =>
      rw [runFor_of_stopped hrun nofun (Nat.le_add_right k d)]
      exact .refl _
    | faulted fault =>
      rw [runFor_of_stopped hrun nofun (Nat.le_add_right k d)]
      exact .refl _

/-- After so many steps the instruction that comes next is about to read or write these
bytes. -/
def Addresses (f : Function) (symbols : Symbols) (input : List UInt8) (n : Nat) (span : Span) :
    Prop :=
  ∃ p m i rest action, f.runFor symbols n { input } = (.running p, m) ∧ p.rest = i :: rest ∧
    Exec.decode symbols i m.tick = .ok action m.tick ∧ action.span? = some span

/-- What is promised of memory in every run of a function. -/
structure MemorySafe (f : Function) (symbols : Symbols) (input : List UInt8) : Prop where
  /-- At every point, an address in a register names an allocation that exists. -/
  anchored : ∀ n, (f.runFor symbols n { input }).2.Anchored
  /-- From any point to a later one, no allocation goes away or changes its length. -/
  kept : ∀ k n, k ≤ n → (f.runFor symbols k { input }).2.memory.Extends
    (f.runFor symbols n { input }).2.memory
  /-- What is about to be read or written is inside its allocation, or the run stops
  with memory as it is. -/
  inside : ∀ n span, f.Addresses symbols input n span →
    span.Inside (f.runFor symbols n { input }).2.memory ∨ ∃ size,
      f.runFor symbols (n + 1) { input } =
        (.faulted (.outOfRange span.length.toNat span.offset.toNat span.alloc size),
          (f.runFor symbols n { input }).2.tick)
  /-- An instruction that goes to memory reads or writes bytes that are there, each at its place,
  and no others, or the run stops with nothing changed. -/
  accesses : ∀ n p m i rest, f.runFor symbols n { input } = (.running p, m) →
    p.rest = i :: rest → i.isAccess symbols = true →
      (∃ span m', span.Inside m.memory ∧ i.Accesses symbols m.tick span m' ∧
        f.runFor symbols (n + 1) { input } = (.running { p with rest }, m')) ∨
      ∃ fault, f.runFor symbols (n + 1) { input } = (.faulted fault, m.tick)
  /-- A byte that a step changes is one that its instruction addresses. -/
  frame : ∀ n alloc index, alloc < (f.runFor symbols n { input }).2.memory.allocations.size →
    (f.runFor symbols (n + 1) { input }).2.memory.byte? alloc index ≠
      (f.runFor symbols n { input }).2.memory.byte? alloc index →
    ∃ span, f.Addresses symbols input n span ∧ span.Covers alloc index
  /-- No run stops because an address names no allocation. -/
  attached : ∀ n alloc, (f.runFor symbols n { input }).1 ≠ .faulted (.dangling alloc)

variable {input : List UInt8}

theorem inside_of_addresses {span : Span} (h : f.Addresses symbols input n span) :
    span.Inside (f.runFor symbols n { input }).2.memory ∨ ∃ size,
      f.runFor symbols (n + 1) { input } =
        (.faulted (.outOfRange span.length.toNat span.offset.toNat span.alloc size),
          (f.runFor symbols n { input }).2.tick) := by
  obtain ⟨p, m, i, rest, action, hrun, hrest, hdecode, hspan⟩ := h
  have hm : m.tick.Anchored := (runFor_safe (Machine.anchored_start input) hrun).1
  have hdecoded : Exec.Decoded symbols m.tick i action := by
    rcases (Exec.looks_decode symbols i).here with
      ⟨action', hdecode', hdecoded⟩ | ⟨fault, hfault, -⟩
    · cases hdecode.symm.trans hdecode'
      exact hdecoded
    · cases hdecode.symm.trans hfault
  rw [runFor_add hrun 1, hrun]
  rcases Exec.perform_cases hm hdecoded with
    ⟨m', -, hdone⟩ | ⟨span', size, hspan', -, -, herror⟩
  · exact .inl (hdone.inside span hspan)
  · cases hspan.symm.trans hspan'
    refine .inr ⟨size, runFrom_error ?_⟩
    rw [Exec.tick_of_instruction symbols f hrest]
    exact bind_of_error ((bind_of_ok hdecode).trans herror)

theorem accesses_of_isAccess {p : Position} {i : Instruction} {rest : List Instruction}
    (hrun : f.runFor symbols n { input } = (.running p, m)) (hrest : p.rest = i :: rest)
    (haccess : i.isAccess symbols = true) :
    (∃ span m', span.Inside m.memory ∧ i.Accesses symbols m.tick span m' ∧
      f.runFor symbols (n + 1) { input } = (.running { p with rest }, m')) ∨
    ∃ fault, f.runFor symbols (n + 1) { input } = (.faulted fault, m.tick) := by
  have hm := (runFor_safe (Machine.anchored_start input) hrun).1
  rw [runFor_add hrun 1]
  rcases Exec.tick_cases symbols f p hm with
    ⟨i', rest', action, m', hrest', -, htick, hdone⟩ | ⟨hempty, -⟩ | ⟨fault, htick, -⟩
  · cases hrest.symm.trans hrest'
    obtain ⟨span, hspan, hdid⟩ := hdone.accesses haccess
    exact .inl ⟨span, m', hdone.inside span hspan, hdid, runFrom_goto htick⟩
  · cases hrest.symm.trans hempty
  · exact .inr ⟨fault, runFrom_error htick⟩

theorem exists_addresses_of_byte?_ne {alloc index : Nat}
    (halloc : alloc < (f.runFor symbols n { input }).2.memory.allocations.size)
    (hne : (f.runFor symbols (n + 1) { input }).2.memory.byte? alloc index ≠
      (f.runFor symbols n { input }).2.memory.byte? alloc index) :
    ∃ span, f.Addresses symbols input n span ∧ span.Covers alloc index := by
  cases hrun : f.runFor symbols n { input } with
  | mk status m =>
    rw [hrun] at halloc hne
    cases status with
    | returned code =>
      rw [runFor_of_stopped hrun nofun (Nat.le_succ n)] at hne
      exact absurd rfl hne
    | faulted fault =>
      rw [runFor_of_stopped hrun nofun (Nat.le_succ n)] at hne
      exact absurd rfl hne
    | running p =>
      have hm := (runFor_safe (Machine.anchored_start input) hrun).1
      rw [runFor_add hrun 1] at hne
      rcases Exec.tick_cases symbols f p hm with
        ⟨i, rest, action, m', hrest, hdecode, htick, hdone⟩ | ⟨-, move, htick⟩ | ⟨fault, htick, -⟩
      · rw [runFrom_goto htick] at hne
        obtain ⟨span, hspan, hcovers⟩ := hdone.frame alloc index halloc hne
        exact ⟨span, ⟨p, m, i, rest, action, hrun, hrest, hdecode, hspan⟩, hcovers⟩
      · cases move with
        | goto q => rw [runFrom_goto htick] at hne; exact absurd rfl hne
        | exit code => rw [runFrom_exit htick] at hne; exact absurd rfl hne
      · rw [runFrom_error htick] at hne
        exact absurd rfl hne

/-- Every function is safe, whatever its blocks hold. -/
theorem memorySafe (f : Function) (symbols : Symbols) (input : List UInt8) :
    f.MemorySafe symbols input where
  anchored _ := (runFor_safe (Machine.anchored_start input) rfl).1
  kept _ _ hk := extends_of_le (Machine.anchored_start input) hk
  inside _ _ h := inside_of_addresses h
  accesses _ _ _ _ _ hrun hrest haccess := accesses_of_isAccess hrun hrest haccess
  frame _ _ _ halloc hne := exists_addresses_of_byte?_ne halloc hne
  attached _ := (runFor_safe (Machine.anchored_start input) rfl).2.2

end Function

namespace Executor

theorem runFunction_ne_dangling (e : Executor) (f : Function) (input : List UInt8)
    (fuel alloc : Nat) : (e.runFunction f input fuel).1 ≠ some (.error (.dangling alloc)) := by
  intro h
  obtain ⟨status, stop, hrun⟩ : ∃ status stop,
      f.runFor e.symbols (e.stepLimit.getD fuel) { input } = (status, stop) := ⟨_, _, rfl⟩
  have hstatus := (Function.runFor_safe (Machine.anchored_start input) hrun).2.2
  simp only [runFunction, hrun] at h
  cases status with
  | returned code => cases h
  | faulted fault =>
    cases h
    exact hstatus alloc rfl
  | running p =>
    cases hlimit : e.stepLimit with
    | none => rw [hlimit] at h; cases h
    | some limit => rw [hlimit] at h; cases h

/-- Whatever an executor is given to run, with whatever symbols, input and step limit, no
run reads or writes outside of an allocation, loses one or changes its length, or comes
upon an address that names none. -/
theorem run_memorySafe (e : Executor) (input : List UInt8) (fuel : Nat) :
    (∀ f : Function, f.MemorySafe e.symbols input ∧
      ∀ alloc, (e.runFunction f input fuel).1 ≠ some (.error (.dangling alloc))) ∧
    ∀ (m : Module) (alloc : Nat), (e.run m input fuel).1 ≠ some (.error (.dangling alloc)) := by
  constructor
  · intro f
    exact ⟨f.memorySafe e.symbols input, e.runFunction_ne_dangling f input fuel⟩
  · intro m alloc
    unfold run
    cases m.functions with
    | nil => exact nofun
    | cons f fs => exact e.runFunction_ne_dangling f input fuel alloc

end Executor

end TapeFlow
